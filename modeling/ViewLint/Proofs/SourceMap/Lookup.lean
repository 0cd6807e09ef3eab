import Mathlib.Data.List.TakeWhile
import ViewLint.SourceMap.Basic

/-!
# Looking up offsets in a source map

In a well-formed map the segments stand one behind the other.  The halving search then finds the
last segment that begins at or before an offset, so that an offset is translated exactly if and
only if some segment holds it.

## Main definitions

* `SourceMap.WellFormed` — the segments are in order, and refer to what is there.
* `SourceMap.ExactAt` — an offset is translated exactly to an offset of a source.
* `Segment.Sends`, `SourceMap.Sends` — a segment holds an offset, and sends it to an offset of
  its source.

## Main results

* `bisect_eq_length_takeWhile` — the halving search on ordered members.
* `SourceMap.exactAt_iff` — exact translation, segment by segment.
-/

namespace ViewLint

/-! ### Searching in order -/

section Search

variable {α : Type} {p : α → Bool}

/-- A member satisfies a predicate just if it stands among the first ones, where those that
satisfy it come first. -/
theorem any_getElem?_eq {xs : List α} (h : xs.Pairwise fun a b => p b → p a) (i : Nat)
    (hi : i < xs.length) : (xs[i]?).any p = decide (i < (xs.takeWhile p).length) := by
  induction xs generalizing i with
  | nil => exact absurd hi (Nat.not_lt_zero i)
  | cons x xs ih =>
    rw [List.pairwise_cons] at h
    by_cases hx : p x = true
    · rw [List.takeWhile_cons_of_pos hx]
      cases i with
      | zero => simp [hx]
      | succ i =>
        rw [List.getElem?_cons_succ, ih h.2 i (Nat.lt_of_succ_lt_succ hi)]
        simp
    · rw [List.takeWhile_cons_of_neg hx]
      -- no later member satisfies the predicate either
      have hnone : ¬p (x :: xs)[i] = true := by
        cases i with
        | zero => exact hx
        | succ i => exact fun hp => hx (h.1 _ (List.getElem_mem _) hp)
      rw [List.getElem?_eq_getElem hi]
      simpa using hnone

/-- The halving search finds the place behind the first members that satisfy a predicate. -/
theorem bisect_eq_length_takeWhile {xs : Array α}
    (h : xs.toList.Pairwise fun a b => p b → p a) :
    bisect p xs = (xs.toList.takeWhile p).length := by
  refine bisect_eq ?_ ?_
  · rw [← Array.length_toList]
    exact (List.takeWhile_prefix p).length_le
  · intro i hi
    rw [← Array.getElem?_toList]
    exact any_getElem?_eq h i hi

theorem mem_takeWhile_of_pairwise {xs : List α} (h : xs.Pairwise fun a b => p b → p a) {x : α}
    (hx : x ∈ xs) (hp : p x = true) : x ∈ xs.takeWhile p := by
  induction xs with
  | nil => cases hx
  | cons y xs ih =>
    rw [List.pairwise_cons] at h
    rcases List.mem_cons.mp hx with rfl | hx
    · rw [List.takeWhile_cons_of_pos hp]
      exact List.mem_cons_self ..
    · rw [List.takeWhile_cons_of_pos (h.1 x hx hp)]
      exact List.mem_cons_of_mem y (ih h.2 hx)

/-- The last of the first members that satisfy a predicate, by its index. -/
theorem getElem?_length_takeWhile {xs : List α} (h : xs.takeWhile p ≠ []) :
    xs[(xs.takeWhile p).length - 1]? = (xs.takeWhile p).getLast? := by
  have hlt : (xs.takeWhile p).length - 1 < (xs.takeWhile p).length :=
    Nat.sub_one_lt_of_lt (List.length_pos_iff.mpr h)
  rw [List.getLast?_eq_getElem?, List.getElem?_eq_getElem hlt,
    (List.takeWhile_prefix p).getElem hlt]
  exact List.getElem?_eq_getElem _

theorem drop_length_takeWhile (p : α → Bool) (xs : List α) :
    xs.drop (xs.takeWhile p).length = xs.dropWhile p := by
  induction xs with
  | nil => rfl
  | cons x xs ih => by_cases hx : p x = true <;> simp [hx, ih]

end Search

/-! ### Well-formed maps -/

/-- A segment holds an offset of the generated text, and sends it to an offset of its source. -/
def Segment.Sends (s : Segment) (o p : Nat) : Prop :=
  s.start ≤ o ∧ o < s.stop ∧ p = s.sourceStart + (o - s.start)

namespace SourceMap

/-- The segments are not empty and stand one behind the other, they refer to sources and names
that are there, and no source is there twice. -/
structure WellFormed (m : SourceMap) : Prop where
  nonempty : ∀ s ∈ m.segments.toList, s.start < s.stop
  ordered : m.segments.toList.Pairwise fun s t => s.stop ≤ t.start
  source_lt : ∀ s ∈ m.segments.toList, s.source < m.sources.length
  name_lt : ∀ s ∈ m.segments.toList, ∀ k, s.name = some k → k < m.names.length
  sources_nodup : m.sources.Nodup

instance (m : SourceMap) : Decidable m.WellFormed :=
  decidable_of_iff
    ((∀ s ∈ m.segments.toList, s.start < s.stop) ∧
      (m.segments.toList.Pairwise fun s t => s.stop ≤ t.start) ∧
      (∀ s ∈ m.segments.toList, s.source < m.sources.length) ∧
      (∀ s ∈ m.segments.toList, ∀ k, s.name = some k → k < m.names.length) ∧ m.sources.Nodup)
    ⟨fun ⟨h₁, h₂, h₃, h₄, h₅⟩ => ⟨h₁, h₂, h₃, h₄, h₅⟩,
      fun h => ⟨h.nonempty, h.ordered, h.source_lt, h.name_lt, h.sources_nodup⟩⟩

/-- An offset is translated exactly, to an offset of a source. -/
def ExactAt (m : SourceMap) (o : Nat) (source : String) (p : Nat) : Prop :=
  ∃ place, m.translate o = some place ∧ place.exact = true ∧
    m.sources[place.source]? = some source ∧ place.offset = p

/-- Some segment of a map sends an offset to an offset of a source. -/
def Sends (m : SourceMap) (o : Nat) (source : String) (p : Nat) : Prop :=
  ∃ s ∈ m.segments.toList, m.sources[s.source]? = some source ∧ s.Sends o p

variable {m : SourceMap}

/-- The segments that begin at or before an offset come first. -/
theorem WellFormed.pairwise_start (h : m.WellFormed) (k : Nat) :
    m.segments.toList.Pairwise fun s t => decide (t.start ≤ k) = true →
      decide (s.start ≤ k) = true := by
  refine h.ordered.imp_of_mem ?_
  intro s t hs _ hst htk
  have hlt := h.nonempty s hs
  rw [decide_eq_true_eq] at htk ⊢
  omega

/-- The segments that end at or before an offset come first. -/
theorem WellFormed.pairwise_stop (h : m.WellFormed) (k : Nat) :
    m.segments.toList.Pairwise fun s t => decide (t.stop ≤ k) = true →
      decide (s.stop ≤ k) = true := by
  refine h.ordered.imp_of_mem ?_
  intro s t _ ht hst htk
  have hlt := h.nonempty t ht
  rw [decide_eq_true_eq] at htk ⊢
  omega

/-- The search finds the place behind a segment that holds the offset. -/
theorem WellFormed.bisect_start (h : m.WellFormed) {o j : Nat} (hj : j < m.segments.size)
    (hstart : m.segments[j].start ≤ o) (hstop : o < m.segments[j].stop) :
    bisect (fun s => s.start ≤ o) m.segments = j + 1 := by
  have hordered := List.pairwise_iff_getElem.mp h.ordered
  refine bisect_eq hj ?_
  intro i hi
  rw [Array.getElem?_eq_getElem hi, Option.any_some, decide_eq_decide]
  rcases Nat.lt_trichotomy i j with hij | rfl | hij
  · -- segments before it begin before
    have hst := hordered i j hi hj hij
    have hlt := h.nonempty m.segments[i] (by simp)
    rw [Array.getElem_toList, Array.getElem_toList] at hst
    omega
  · omega
  · -- segments behind it begin behind the offset
    have hst := hordered j i hj hi hij
    rw [Array.getElem_toList, Array.getElem_toList] at hst
    omega

theorem WellFormed.translate_of_mem (h : m.WellFormed) {s : Segment} (hs : s ∈ m.segments.toList)
    {o p : Nat} (hsends : s.Sends o p) : m.translate o = some ⟨s.source, p, true⟩ := by
  obtain ⟨hstart, hstop, rfl⟩ := hsends
  obtain ⟨j, hj, rfl⟩ := List.getElem_of_mem hs
  rw [Array.getElem_toList] at hstart hstop ⊢
  rw [translate, h.bisect_start hj hstart hstop]
  dsimp only
  rw [Array.getElem?_eq_getElem hj, Option.map_some, if_pos hstop]

theorem WellFormed.exists_mem_of_translate (h : m.WellFormed) {o : Nat} {place : Place}
    (ht : m.translate o = some place) (hexact : place.exact = true) :
    ∃ s ∈ m.segments.toList, s.source = place.source ∧ s.Sends o place.offset := by
  have hsearch := bisect_eq_length_takeWhile (h.pairwise_start o)
  rw [translate] at ht
  split at ht
  · cases ht
  · next n hn =>
    obtain ⟨s, hs, rfl⟩ := Option.map_eq_some_iff.mp ht
    have hlt : n < m.segments.toList.length := by
      rw [Array.length_toList]
      exact (Array.getElem?_eq_some_iff.mp hs).1
    rw [← Array.getElem?_toList] at hs
    have hany := any_getElem?_eq (h.pairwise_start o) n hlt
    rw [hs, ← hsearch, hn, Option.any_some, decide_eq_decide] at hany
    refine ⟨s, List.mem_of_getElem? hs, ?_⟩
    split at hexact
    · next hstop =>
      rw [if_pos hstop]
      exact ⟨rfl, hany.mpr (Nat.lt_succ_self n), hstop, rfl⟩
    · cases hexact

/-- An offset is translated exactly by the segment that holds it. -/
theorem exactAt_iff (h : m.WellFormed) {o p : Nat} {source : String} :
    m.ExactAt o source p ↔ m.Sends o source p := by
  constructor
  · rintro ⟨place, ht, hexact, hsource, rfl⟩
    obtain ⟨s, hs, heq, hsends⟩ := h.exists_mem_of_translate ht hexact
    exact ⟨s, hs, heq ▸ hsource, hsends⟩
  · rintro ⟨s, hs, hsource, hsends⟩
    exact ⟨_, h.translate_of_mem hs hsends, rfl, hsource, rfl⟩

end SourceMap

end ViewLint
