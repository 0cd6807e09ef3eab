import ViewLint.Search

/-!
# Source maps

A source map sends stretches of a generated text to stretches of the same size of source
texts.  A chain of revisions, each with a map to the one before it, is composed into one map.

## Main definitions

* `Segment`, `SourceMap` — the maps.
* `SourceMap.translate` — the place that an offset of the generated text comes from.
* `SourceMap.mergeWith` — a map composed with the map of the text it was generated from.
* `Chain` — the maps of successive revisions, with `Chain.translate` and `Chain.merged?`.
-/

namespace ViewLint

/-- A stretch of generated text, from byte `start` to byte `stop`, that comes from the stretch
of the same size at `sourceStart` in a source. -/
structure Segment where
  start : Nat
  stop : Nat
  source : Nat
  sourceStart : Nat
  /-- The number of the name that the stretch has in the source. -/
  name : Option Nat
  deriving DecidableEq, Repr, Inhabited

/-- The place that an offset comes from. -/
structure Place where
  source : Nat
  offset : Nat
  /-- Whether the offset lies in a segment.  Otherwise the place is where the segment before
  it begins. -/
  exact : Bool
  deriving DecidableEq, Repr, Inhabited

/-- The segments of a generated text, with the sources and names that they refer to by
number. -/
structure SourceMap where
  file : String
  sources : List String
  names : List String
  segments : Array Segment
  deriving DecidableEq, Repr

/-- The number of a text in a list; a text that is not there is put at the end. -/
def intern (texts : List String) (text : String) : Nat × List String :=
  match texts.idxOf? text with
  | some i => (i, texts)
  | none => (texts.length, texts ++ [text])

namespace SourceMap

/-- A map without segments. -/
def empty (file : String) : SourceMap := ⟨file, [], [], #[]⟩

instance : Inhabited SourceMap := ⟨empty ""⟩

/-- The number of a source, and the map that knows it. -/
def addSource (m : SourceMap) (name : String) : Nat × SourceMap :=
  let (i, sources) := intern m.sources name
  (i, { m with sources })

/-- The number of a name, and the map that knows it. -/
def addName (m : SourceMap) : Option String → Option Nat × SourceMap
  | some name =>
    let (i, names) := intern m.names name
    (some i, { m with names })
  | none => (none, m)

/-- Adds a segment behind all others.  An empty one is left out. -/
def addSegment (m : SourceMap) (start stop source sourceStart : Nat) (name : Option String) :
    SourceMap :=
  if stop ≤ start then m
  else
    let (name, m) := m.addName name
    { m with segments := m.segments.push ⟨start, stop, source, sourceStart, name⟩ }

/-- The number of a source. -/
def sourceIndex? (m : SourceMap) (name : String) : Option Nat := m.sources.idxOf? name

/-- The source of a number. -/
def sourceName (m : SourceMap) (i : Nat) : String := m.sources[i]?.getD ""

/-- The name that a segment has in the source. -/
def segmentName? (m : SourceMap) (s : Segment) : Option String := s.name.bind (m.names[·]?)

/-- The place that an offset of the generated text comes from.  Between two segments it is
where the first of them begins; before the first segment there is none. -/
def translate (m : SourceMap) (offset : Nat) : Option Place :=
  match bisect (fun s => s.start ≤ offset) m.segments with
  | 0 => none
  | n + 1 => m.segments[n]?.map fun s =>
    if offset < s.stop then ⟨s.source, s.sourceStart + (offset - s.start), true⟩
    else ⟨s.source, s.sourceStart, false⟩

/-! ### Composition -/

/-- Adds the part that a segment at `offset`, which comes from the bytes from `first` to `last`
of an earlier text, has in common with a segment of that text. -/
def addOverlap (previous : SourceMap) (offset first last : Nat) (merged : SourceMap)
    (s : Segment) : SourceMap :=
  let start := max first s.start
  let stop := min last s.stop
  let (source, merged) := merged.addSource (previous.sourceName s.source)
  merged.addSegment (offset + (start - first)) (offset + (stop - first)) source
    (s.sourceStart + (start - s.start)) (previous.segmentName? s)

/-- The segments of a map that meet the bytes from `first` to `last`. -/
def overlapping (m : SourceMap) (first last : Nat) : List Segment :=
  (m.segments.toList.drop (bisect (fun s => s.stop ≤ first) m.segments)).takeWhile
    (·.start < last)

/-- Adds a segment of a map to the composition with an earlier one.  A segment to the earlier
text goes where that text comes from, as far as it is known. -/
def addComposed (m previous : SourceMap) (merged : SourceMap) (s : Segment) : SourceMap :=
  if some s.source = m.sourceIndex? previous.file then
    let last := s.sourceStart + (s.stop - s.start)
    (previous.overlapping s.sourceStart last).foldl (addOverlap previous s.start s.sourceStart last)
      merged
  else
    let (source, merged) := merged.addSource (m.sourceName s.source)
    merged.addSegment s.start s.stop source s.sourceStart (m.segmentName? s)

/-- A map composed with the map of the text that it was generated from. -/
def mergeWith (m previous : SourceMap) : SourceMap :=
  m.segments.foldl (m.addComposed previous) (empty m.file)

end SourceMap

/-! ### Chains of revisions -/

/-- The maps of successive revisions of a text, the newest first. -/
structure Chain where
  maps : List SourceMap
  deriving DecidableEq, Repr

namespace Chain

/-- No revisions. -/
def empty : Chain := ⟨[]⟩

instance : Inhabited Chain := ⟨empty⟩

/-- The number of revisions. -/
def size (c : Chain) : Nat := c.maps.length

/-- Adds the map of the next revision. -/
def push (c : Chain) (m : SourceMap) : Chain := ⟨m :: c.maps⟩

/-- Translates an offset through one map after the other, as long as the next one describes
the source that has been reached.  The answer is exact if every step is. -/
def translateFrom : List SourceMap → Nat → Option (String × Place)
  | [], _ => none
  | [m], offset => (m.translate offset).map fun p => (m.sourceName p.source, p)
  | m :: previous :: older, offset => do
    let p ← m.translate offset
    let name := m.sourceName p.source
    if name = previous.file then
      let (source, q) ← translateFrom (previous :: older) p.offset
      return (source, { q with exact := p.exact && q.exact })
    else return (name, p)

/-- The source and place that an offset of the newest revision comes from. -/
def translate (c : Chain) (offset : Nat) : Option (String × Place) :=
  translateFrom c.maps offset

/-- The composition of maps, the newest of which comes first. -/
def mergedFrom : List SourceMap → Option SourceMap
  | [] => none
  | m :: older =>
    match mergedFrom older with
    | some previous => some (m.mergeWith previous)
    | none => some m

/-- The whole chain as one map. -/
def merged? (c : Chain) : Option SourceMap := mergedFrom c.maps

end Chain

end ViewLint
