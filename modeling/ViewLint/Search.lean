/-!
# Binary search

The number of leading members of an array that satisfy a predicate, found by halving.  On an
array whose satisfying members all come first this is how many of them there are; on any
other array the answer is what the halving happens to meet.

## Main definitions

* `bisect p xs` — the search.

## Main results

* `bisect_eq` — what the search finds where the satisfying members come first.
-/

namespace ViewLint

variable {α : Type}

/-- Halves the stretch of `size` members from `base` on until one member is left, keeping the
upper half whenever its first member satisfies the predicate. -/
def bisectSteps (p : α → Bool) (xs : Array α) : Nat → Nat → Nat → Nat
  | 0, base, _ => base
  | fuel + 1, base, size =>
    if size ≤ 1 then base
    else
      let half := size / 2
      let mid := base + half
      let base' := if (xs[mid]?).any p then mid else base
      bisectSteps p xs fuel base' (size - half)

/-- The place behind the members that satisfy a predicate, found by halving.  Every step
makes the stretch shorter, so the size of the array bounds their number. -/
def bisect (p : α → Bool) (xs : Array α) : Nat :=
  if xs.isEmpty then 0
  else
    let base := bisectSteps p xs xs.size 0 xs.size
    if (xs[base]?).any p then base + 1 else base

/-- The member that is left has the place looked for at itself or behind it, if the stretch
had. -/
theorem bisectSteps_bounds {p : α → Bool} {xs : Array α} {k : Nat}
    (h : ∀ i, i < xs.size → (xs[i]?).any p = decide (i < k)) :
    ∀ fuel base size, size ≤ fuel → 0 < size → base + size ≤ xs.size →
      base ≤ k → k ≤ base + size →
      bisectSteps p xs fuel base size < xs.size ∧ bisectSteps p xs fuel base size ≤ k ∧
        k ≤ bisectSteps p xs fuel base size + 1 := by
  intro fuel
  induction fuel with
  | zero => intro base size hf hs; omega
  | succ fuel ih =>
    intro base size hf hs hx hb hk
    rw [bisectSteps]
    split
    · exact ⟨by omega, hb, by omega⟩
    · have hmid := h (base + size / 2) (by omega)
      simp only [hmid, decide_eq_true_eq]
      split
      · -- the middle satisfies the predicate, so the place is behind it: go on from the middle
        exact ih _ _ (by omega) (by omega) (by omega) (by omega) (by omega)
      · -- it does not, so the place is at the middle or before it: the start stays
        exact ih _ _ (by omega) (by omega) (by omega) (by omega) (by omega)

/-- Where exactly the first `k` members satisfy the predicate, the search finds `k`. -/
theorem bisect_eq {p : α → Bool} {xs : Array α} {k : Nat} (hk : k ≤ xs.size)
    (h : ∀ i, i < xs.size → (xs[i]?).any p = decide (i < k)) : bisect p xs = k := by
  rw [bisect]
  split
  · rename_i hempty
    have : xs.size = 0 := by simpa using hempty
    omega
  · rename_i hne
    have hpos : 0 < xs.size := by
      rcases Nat.eq_zero_or_pos xs.size with h0 | h0
      · exact absurd (by simpa using h0) hne
      · exact h0
    obtain ⟨hlt, hle, hge⟩ :=
      bisectSteps_bounds h xs.size 0 xs.size (Nat.le_refl _) hpos (by omega) (by omega) (by omega)
    -- one member is left, and whether it satisfies the predicate decides between two places
    simp only [h _ hlt, decide_eq_true_eq]
    split <;> omega

end ViewLint
