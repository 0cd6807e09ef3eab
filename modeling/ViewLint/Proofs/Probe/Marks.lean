import Mathlib.Tactic.Common
import ViewLint.Probe.Basic

/-!
# Marks in a row

The marks of the pending text stand one behind the other.  Emitting text puts its mark behind all
others, and anchoring puts marks of one byte into the gaps since some offset, which moves no mark
that is there.

## Main definitions

* `InRow first last marks` — marks one behind the other, from `first` to `last`.
* `Probe.Tidy` — the marks of a program stand in a row in its pending text.

## Main results

* `InRow.anchored` — marks in the gaps of a row make a row.
* `Probe.marks_anchor` — anchoring what has been emitted since some offset.
-/

namespace ViewLint

/-- Marks that stand one behind the other, from one offset to another. -/
def InRow (first last : Nat) : List Mark → Prop
  | [] => first ≤ last
  | k :: marks => first ≤ k.start ∧ k.start ≤ k.stop ∧ InRow k.stop last marks

namespace InRow

variable {first middle last : Nat} {marks new : List Mark}

theorem le (h : InRow first last marks) : first ≤ last := by
  induction marks generalizing first with
  | nil => exact h
  | cons k marks ih =>
    obtain ⟨hfirst, hk, hmarks⟩ := h
    have := ih hmarks
    omega

theorem append (h : InRow first middle marks) (hnew : InRow middle last new) :
    InRow first last (marks ++ new) := by
  induction marks generalizing first with
  | nil =>
    have hle : first ≤ middle := h
    cases new with
    | nil => exact Nat.le_trans hle hnew
    | cons k new => exact ⟨Nat.le_trans hle hnew.1, hnew.2⟩
  | cons k marks ih => exact ⟨h.1, h.2.1, ih h.2.2⟩

theorem bounds (h : InRow first last marks) {k : Mark} (hk : k ∈ marks) :
    first ≤ k.start ∧ k.start ≤ k.stop ∧ k.stop ≤ last := by
  induction marks generalizing first with
  | nil => cases hk
  | cons l marks ih =>
    obtain ⟨hfirst, hl, hmarks⟩ := h
    rcases List.mem_cons.mp hk with rfl | hk
    · exact ⟨hfirst, hl, hmarks.le⟩
    · obtain ⟨hstart, hstop, hlast⟩ := ih hmarks hk
      refine ⟨?_, hstop, hlast⟩
      omega

end InRow

/-! ### Anchors -/

/-- Anchoring keeps the marks that are there. -/
theorem mem_anchored {k : Mark} {marks : List Mark} (hk : k ∈ marks)
    (sourceStart stop cursor : Nat) : k ∈ Probe.anchored sourceStart stop cursor marks := by
  induction marks generalizing cursor with
  | nil => cases hk
  | cons l marks ih =>
    have hrest : k ∈ l :: Probe.anchored sourceStart stop (max cursor l.stop) marks := by
      rcases List.mem_cons.mp hk with rfl | hk
      · exact List.mem_cons_self ..
      · exact List.mem_cons_of_mem l (ih hk _)
    rw [Probe.anchored]
    split
    · exact List.mem_cons_of_mem _ hrest
    · exact hrest

namespace InRow

variable {first middle last : Nat} {marks new : List Mark}

/-- Marks in the gaps of a row make a row. -/
theorem anchored (h : InRow first last marks) (sourceStart : Nat) :
    InRow first last (Probe.anchored sourceStart last first marks) := by
  induction marks generalizing first with
  | nil =>
    have hle : first ≤ last := h
    rw [Probe.anchored]
    split
    · next hlt => exact ⟨Nat.le_refl _, Nat.le_succ _, hlt⟩
    · exact hle
  | cons k marks ih =>
    obtain ⟨hfirst, hk, hmarks⟩ := h
    rw [Probe.anchored, Nat.max_eq_right (Nat.le_trans hfirst hk)]
    split
    · next hgap => exact ⟨Nat.le_refl _, Nat.le_succ _, hgap, hk, ih hmarks⟩
    · exact ⟨hfirst, hk, ih hmarks⟩

theorem takeWhile_eq_nil (h : InRow first last marks) :
    marks.takeWhile (·.start < first) = [] := by
  cases marks with
  | nil => rfl
  | cons k marks => exact List.takeWhile_cons_of_neg (by simpa using h.1)

theorem dropWhile_eq_self (h : InRow first last marks) :
    marks.dropWhile (·.start < first) = marks := by
  cases marks with
  | nil => rfl
  | cons k marks => exact List.dropWhile_cons_of_neg (by simpa using h.1)

/-- Anchoring from `middle` on changes nothing that stands before. -/
theorem anchored_append (h : InRow first middle marks) (hnew : InRow middle last new)
    (sourceStart : Nat) :
    (marks ++ new).takeWhile (·.start < middle) ++
        Probe.anchored sourceStart last middle ((marks ++ new).dropWhile (·.start < middle)) =
      marks ++ Probe.anchored sourceStart last middle new := by
  induction marks generalizing first with
  | nil => rw [List.nil_append, hnew.takeWhile_eq_nil, hnew.dropWhile_eq_self]
  | cons k marks ih =>
    obtain ⟨hfirst, hk, hmarks⟩ := h
    have hrest := ih hmarks
    by_cases hlt : k.start < middle
    · rw [List.cons_append, List.takeWhile_cons_of_pos (by simpa using hlt),
        List.dropWhile_cons_of_pos (by simpa using hlt), List.cons_append, hrest, List.cons_append]
    · -- an empty mark at `middle`: nothing but such marks is left of the row
      have hle := hmarks.le
      obtain ⟨hstart, hstop⟩ : k.start = middle ∧ k.stop = middle := by omega
      rw [hstop] at hmarks
      have hrow := hmarks.append hnew
      rw [hrow.takeWhile_eq_nil, hrow.dropWhile_eq_self] at hrest
      have hcons : InRow middle last (k :: (marks ++ new)) :=
        ⟨Nat.le_of_eq hstart.symm, hk, hstop ▸ hrow⟩
      rw [List.cons_append, hcons.takeWhile_eq_nil, hcons.dropWhile_eq_self, List.nil_append,
        Probe.anchored, if_neg (by omega), hstop, Nat.max_self]
      exact congrArg (k :: ·) hrest

end InRow

namespace Probe

/-- The marks of a program stand in a row in its pending text. -/
def Tidy (p : Probe) : Prop := InRow 0 p.pending.utf8ByteSize p.marks

/-- Anchoring what has been emitted since some offset puts marks behind those before it. -/
theorem marks_anchor {p : Probe} {marks new : List Mark} {start : Nat}
    (hmarks : p.marks = marks ++ new) (h : InRow 0 start marks)
    (hnew : InRow start p.pending.utf8ByteSize new) (sourceStart : Nat) :
    (p.anchor start sourceStart).marks =
      marks ++ anchored sourceStart p.pending.utf8ByteSize start new := by
  rw [anchor, hmarks]
  exact h.anchored_append hnew sourceStart

end Probe

end ViewLint
