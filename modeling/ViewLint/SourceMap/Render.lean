import ViewLint.Location.Index
import ViewLint.SourceMap.Basic
import ViewLint.Text.Quoted

/-!
# Source maps in version 3 of the interchange format

The format lists entries by line and column.  Each entry marks the place from which on a
stretch of generated text comes from a place of a source, or from none.  The entries of one
line are divided by commas and the lines by semicolons; numbers are written as differences to
the entry before, in base 64 with variable length.

## Main definitions

* `Entry` — one entry.
* `SourceMap.entries` — the entries of a map.
* `vlq` — a number in base 64.
* `encodeEntries` — the text of a list of entries.
* `RenderedMap` — a map in the format, with `RenderedMap.toJson`.
-/

namespace ViewLint

open Text

/-- A place of a source: its number, and a line and a column counted from zero. -/
structure SourcePoint where
  source : Nat
  line : Nat
  column : Nat
  deriving DecidableEq, Repr, Inhabited

/-- Where a stretch of generated text begins, and where it comes from.  Lines and columns are
counted from zero. -/
structure Entry where
  line : Nat
  column : Nat
  origin : Option SourcePoint
  name : Option Nat
  deriving DecidableEq, Repr, Inhabited

/-! ### The entries of a map -/

/-- The offsets behind the line feeds of a text that begins at `offset`. -/
def lineStarts (offset : Nat) : List Char → List Nat
  | [] => []
  | c :: t =>
    let after := offset + c.utf8Size
    if c = '\n' then after :: lineStarts after t else lineStarts after t

/-- The offsets of a segment that get an entry: its start, and every start of a line inside
it. -/
def Segment.points (s : Segment) (body : List Char) : List Nat :=
  s.start :: (lineStarts s.start body).filter (· < s.stop)

/-- A text that can be looked up. -/
abbrev Indexed : Type := (t : List Char) × TextIndex t

/-- A text with its index. -/
def Indexed.of (t : String) : Indexed := ⟨t.toList, .of t.toList⟩

/-- The entry at an offset of a segment. -/
def Segment.entryAt (s : Segment) (generated source : Indexed) (name : Option Nat)
    (offset : Nat) : Entry :=
  let here := generated.2.positionAt offset
  let there := source.2.positionAt (s.sourceStart + (offset - s.start))
  ⟨here.line - 1, here.column, some ⟨s.source, there.line - 1, there.column⟩, name⟩

/-- The entry at the end of a segment. -/
def Segment.endEntry (s : Segment) (generated : Indexed) : Entry :=
  let here := generated.2.positionAt s.stop
  ⟨here.line - 1, here.column, none, none⟩

/-- The entries of a segment.  There are none if the text of its source is missing, or if it
does not begin and end between characters of the generated text. -/
def Segment.entries (s : Segment) (generated : Indexed) (sources : List Indexed) :
    List Entry :=
  match sources[s.source]?, generated.2.between? s.start s.stop with
  | some source, some body =>
    match s.points body with
    | [] => []
    | first :: rest =>
      s.entryAt generated source s.name first ::
        rest.map (s.entryAt generated source none) ++ [s.endEntry generated]
  | _, _ => []

/-- The entries of a map. -/
def SourceMap.entries (m : SourceMap) (generated : Indexed) (sources : List Indexed) :
    List Entry :=
  m.segments.toList.flatMap (·.entries generated sources)

/-! ### Numbers -/

/-- The digits of base 64. -/
def base64 : List Char :=
  "ABCDEFGHIJKLMNOPQRSTUVWXYZabcdefghijklmnopqrstuvwxyz0123456789+/".toList

/-- A digit of base 64. -/
def base64Digit (n : Nat) : Char := base64[n]?.getD 'A'

/-- A number in groups of five bits, the lowest first; all digits but the last have the sixth
bit set.  Every group but the last makes the number smaller. -/
def vlqDigits : Nat → Nat → List Char
  | 0, n => [base64Digit (n % 32)]
  | fuel + 1, n =>
    if n / 32 = 0 then [base64Digit n]
    else base64Digit (n % 32 + 32) :: vlqDigits fuel (n / 32)

/-- A number as it is written: the lowest bit is the sign. -/
def vlq (n : Int) : List Char :=
  let signed := if n < 0 then 2 * n.natAbs + 1 else 2 * n.natAbs
  vlqDigits signed signed

/-! ### The text of entries -/

/-- What the next entry is written against. -/
structure EncoderState where
  line : Nat
  column : Nat
  origin : SourcePoint
  name : Nat
  /-- Whether the line has an entry already. -/
  hasEntry : Bool

/-- Before the first entry every number counts as zero. -/
def EncoderState.initial : EncoderState := ⟨0, 0, ⟨0, 0, 0⟩, 0, false⟩

/-- A number as the difference to an earlier one. -/
def vlqDiff (new old : Nat) : List Char := vlq ((new : Int) - old)

/-- The origin of an entry as it is written. -/
def encodeOrigin (old : SourcePoint) : Option SourcePoint → List Char
  | some p => vlqDiff p.source old.source ++ vlqDiff p.line old.line ++
      vlqDiff p.column old.column
  | none => []

/-- The name of an entry as it is written.  Only an entry with an origin has one. -/
def encodeName (old : Nat) (e : Entry) : List Char :=
  match e.origin, e.name with
  | some _, some name => vlqDiff name old
  | _, _ => []

/-- The text of one entry, behind those written before. -/
def encodeEntry (s : EncoderState) (e : Entry) : List Char × EncoderState :=
  let breaks := List.replicate (e.line - s.line) ';'
  let isNew := s.line < e.line
  let column := if isNew then 0 else s.column
  let comma := if !isNew && s.hasEntry then [','] else []
  let name := match e.origin, e.name with
    | some _, some name => name
    | _, _ => s.name
  (breaks ++ comma ++ vlqDiff e.column column ++ encodeOrigin s.origin e.origin ++
      encodeName s.name e,
    ⟨max s.line e.line, e.column, e.origin.getD s.origin, name, true⟩)

/-- The text of entries, behind those written before. -/
def encodeFrom (s : EncoderState) : List Entry → List Char
  | [] => []
  | e :: es =>
    let (text, s) := encodeEntry s e
    text ++ encodeFrom s es

/-- The text of a list of entries. -/
def encodeEntries (es : List Entry) : String := .ofList (encodeFrom .initial es)

/-! ### The whole map -/

/-- A map in the format. -/
structure RenderedMap where
  version : Nat
  file : String
  sources : List String
  names : List String
  mappings : String
  deriving DecidableEq, Repr

/-- A map of a generated text in the format, given the texts of the sources. -/
def SourceMap.render (m : SourceMap) (generated : String) (sources : List String) :
    RenderedMap :=
  ⟨3, m.file, m.sources, m.names,
    encodeEntries (m.entries (.of generated) (sources.map .of))⟩

/-- A list of texts in JSON. -/
def quoteList (texts : List String) : String := "[" ++ ",".intercalate (texts.map quote) ++ "]"

/-- The map in JSON. -/
def RenderedMap.toJson (m : RenderedMap) : String :=
  "\x7b\"version\":" ++ Nat.repr m.version ++ ",\"file\":" ++ quote m.file ++
    ",\"sources\":" ++ quoteList m.sources ++ ",\"names\":" ++ quoteList m.names ++
    ",\"mappings\":" ++ quote m.mappings ++ "\x7d"

end ViewLint
