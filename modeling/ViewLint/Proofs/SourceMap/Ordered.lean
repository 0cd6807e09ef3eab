import ViewLint.Proofs.SourceMap.Compose

/-!
# Segments that are added in order

A segment is to be added behind all others, but adding it does not look at them.  A map that has
been built with a look at the last segment each time is the same map, provided that no look fails.
This is so for the composition of well-formed maps, where the pieces of one segment come in the
order of the segments that cut it.

## Main definitions

* `SourceMap.addSegment?` — adds a segment, unless the last one goes beyond its start.
* `SourceMap.mergeWith?` — the composition of two maps, with a look at each segment that is added.

## Main results

* `SourceMap.Bounded.addSegment?_eq` — a segment behind the end of a map.
* `SourceMap.foldlM_eq_foldl` — one segment after the other.
* `SourceMap.mergeWith?_eq` — no look fails when two maps are composed.
-/

namespace ViewLint.SourceMap

variable {m previous : SourceMap}

/-- Adds a segment behind all others.  It is none if it is not empty and the last segment goes
beyond its start. -/
def addSegment? (m : SourceMap) (start stop source sourceStart : Nat) (name : Option String) :
    Option SourceMap :=
  if start < stop ∧ m.segments.back?.any (start < ·.stop) then none
  else some (m.addSegment start stop source sourceStart name)

/-- Adds the part that a segment has in common with one of the earlier text, in order. -/
def addOverlap? (previous : SourceMap) (offset first last : Nat) (merged : SourceMap)
    (s : Segment) :
    Option SourceMap :=
  let start := max first s.start
  let stop := min last s.stop
  let (source, merged) := merged.addSource (previous.sourceName s.source)
  merged.addSegment? (offset + (start - first)) (offset + (stop - first)) source
    (s.sourceStart + (start - s.start)) (previous.segmentName? s)

/-- Adds a segment to the composition with an earlier map, in order. -/
def addComposed? (m previous : SourceMap) (merged : SourceMap) (s : Segment) : Option SourceMap :=
  if some s.source = m.sourceIndex? previous.file then
    let last := s.sourceStart + (s.stop - s.start)
    (previous.overlapping s.sourceStart last).foldlM
      (addOverlap? previous s.start s.sourceStart last) merged
  else
    let (source, merged) := merged.addSource (m.sourceName s.source)
    merged.addSegment? s.start s.stop source s.sourceStart (m.segmentName? s)

/-- A map composed with the map of the text that it was generated from, where all segments are added
in order. -/
def mergeWith? (m previous : SourceMap) : Option SourceMap :=
  m.segments.toList.foldlM (m.addComposed? previous) (empty m.file)

/-- A segment behind the end of a map is behind its last segment. -/
theorem Bounded.addSegment?_eq {limit start : Nat} (h : m.Bounded limit) (hlimit : limit ≤ start)
    (stop source sourceStart : Nat) (name : Option String) :
    m.addSegment? start stop source sourceStart name =
      some (m.addSegment start stop source sourceStart name) := by
  refine if_neg ?_
  rintro ⟨-, hlast⟩
  obtain ⟨s, hs, hlt⟩ := (Option.any_eq_true _ _).mp hlast
  have hle := h.stop_le s (Array.mem_toList_iff.mpr (Array.mem_of_back? hs))
  rw [decide_eq_true_eq] at hlt
  omega

/-- Steps that succeed one by one, each from where the one before it ends, succeed together. -/
theorem foldlM_eq_foldl {f : SourceMap → Segment → SourceMap}
    {f? : SourceMap → Segment → Option SourceMap} {low high : Segment → Nat}
    {P : Segment → Nat → String → Nat → Prop} {ss : List Segment} {limit : Nat}
    (hstep : ∀ s ∈ ss, Appends (f · s) (low s) (high s) (P s))
    (hchecked : ∀ s ∈ ss, ∀ m limit, m.Bounded limit → limit ≤ low s → f? m s = some (f m s))
    (hordered : ss.Pairwise fun s t => high s ≤ low t) (h : m.Bounded limit)
    (hlow : ∀ s ∈ ss, limit ≤ low s) : ss.foldlM f? m = some (ss.foldl f m) := by
  induction ss generalizing m limit with
  | nil => rfl
  | cons s ss ih =>
    rw [List.forall_mem_cons] at hstep hchecked hlow
    rw [List.pairwise_cons] at hordered
    obtain ⟨hbounded, -⟩ := hstep.1 m limit h hlow.1
    rw [List.foldlM_cons, hchecked.1 m limit h hlow.1, List.foldl_cons]
    exact ih hstep.2 hchecked.2 hordered.2 hbounded hordered.1

/-- The pieces of a segment are added in order. -/
theorem WellFormed.foldlM_addOverlap? (h : previous.WellFormed) {offset first last limit : Nat}
    (hm : m.Bounded limit) (hlimit : limit ≤ offset) :
    (previous.overlapping first last).foldlM (addOverlap? previous offset first last) m =
      some ((previous.overlapping first last).foldl (addOverlap previous offset first last) m) := by
  have hsub := previous.overlapping_sublist first last
  refine foldlM_eq_foldl
    (fun s hs => h.appends_addOverlap (hsub.mem hs) offset first last) ?_ ?_ hm ?_
  · intro s hs m limit hm hlimit
    exact (hm.addSource _).addSegment?_eq hlimit _ _ _ _
  · refine (h.ordered.sublist hsub).imp_of_mem ?_
    intro s t hs _ hst
    have hlt := h.nonempty s (hsub.mem hs)
    omega
  · intro s _
    exact Nat.le_trans hlimit (Nat.le_add_right _ _)

/-- No look fails when two well-formed maps are composed. -/
theorem mergeWith?_eq (hm : m.WellFormed) (hprevious : previous.WellFormed) :
    m.mergeWith? previous = some (m.mergeWith previous) := by
  rw [mergeWith?, mergeWith, ← Array.foldl_toList]
  refine foldlM_eq_foldl (fun s hs => appends_addComposed hm hprevious hs) ?_ hm.ordered
    (bounded_empty m.file) (fun s _ => Nat.zero_le s.start)
  intro s hs merged limit hmerged hlimit
  unfold addComposed? addComposed
  split
  · exact hprevious.foldlM_addOverlap? hmerged hlimit
  · exact (hmerged.addSource _).addSegment?_eq hlimit _ _ _ _

end ViewLint.SourceMap
