import Mathlib.Tactic.Common
import ViewLint.Location

/-!
# Excerpts of a text

A text that has been cut out of another one, with the place where it stands there.  The place
counts bytes, so that every byte of the excerpt is a byte of the other text; and a place inside the
excerpt, which counts lines and bytes from its beginning on, is a place of the other text.

## Main definitions

* `Excerpt t s l` — the text `s` is the stretch of `t` at the place `l`.

## Main results

* `Excerpt.utf8ByteSize_eq`, `Excerpt.exists_append` — an excerpt has the bytes of its place.
* `Location.relative_ofChars` — a place counted from the beginning of a stretch is one of the whole
  text.
* `extract_append_append` — the bytes of a text are the same wherever it stands.
* `between?_eq_some_iff` — the part of a text between two bytes, with what stands around it.
* `Position.after_of_not_mem`, `Position.line_after` — columns count characters, and lines line
  feeds.
-/

namespace ViewLint

open Text

/-- A text is the stretch of another one from some character to another, and has its place. -/
def Excerpt (t : List Char) (s : String) (l : Location) : Prop :=
  ∃ i j, i ≤ j ∧ s = .ofList ((t.take j).drop i) ∧ l = .ofChars t i j

variable {t : List Char} {s : String} {l : Location}

/-! ### Bytes -/

theorem utf8ByteSize_ofList (t : List Char) : (String.ofList t).utf8ByteSize = bytes t := by
  induction t with
  | nil => simp
  | cons c t ih =>
    rw [String.ofList_cons, String.utf8ByteSize_append, String.utf8ByteSize_singleton, ih,
      bytes_cons]

/-- The first characters of a text are those before a stretch and those of the stretch. -/
theorem take_append_stretch (t : List Char) {i j : Nat} (h : i ≤ j) :
    t.take i ++ (t.take j).drop i = t.take j := by
  have hfirst : t.take i = (t.take j).take i := by rw [List.take_take, Nat.min_eq_left h]
  rw [hfirst, List.take_append_drop]

theorem Excerpt.utf8ByteSize_eq (h : Excerpt t s l) : s.utf8ByteSize = l.size := by
  obtain ⟨i, j, hij, rfl, rfl⟩ := h
  have hbytes := congrArg bytes (take_append_stretch t hij)
  rw [bytes_append] at hbytes
  rw [utf8ByteSize_ofList]
  change _ = bytes (t.take j) - bytes (t.take i)
  omega

/-- The whole text is the excerpt with what stands before and behind it. -/
theorem Excerpt.exists_append (h : Excerpt t s l) :
    ∃ before after, String.ofList t = before ++ (s ++ after) ∧ before.utf8ByteSize = l.start := by
  obtain ⟨i, j, hij, rfl, rfl⟩ := h
  refine ⟨.ofList (t.take i), .ofList (t.drop j), ?_, utf8ByteSize_ofList _⟩
  rw [← String.ofList_append, ← String.ofList_append, ← List.append_assoc,
    take_append_stretch t hij, List.take_append_drop]

/-- The bytes of a text that stands in another one. -/
theorem extract_append_append (before s after : String) {i n : Nat}
    (h : i + n ≤ s.utf8ByteSize) :
    (before ++ (s ++ after)).toByteArray.extract (before.utf8ByteSize + i)
      (before.utf8ByteSize + i + n) = s.toByteArray.extract i (i + n) := by
  have hend : i + n - s.toByteArray.size = 0 := Nat.sub_eq_zero_of_le h
  have hnone : after.toByteArray.extract (i - s.toByteArray.size)
      (i + n - s.toByteArray.size) = ByteArray.empty := by
    rw [hend, ByteArray.extract_eq_empty_iff, Nat.zero_min]
    exact Nat.zero_le _
  rw [String.toByteArray_append, String.toByteArray_append, Nat.add_assoc]
  change (before.toByteArray ++ _).extract (before.toByteArray.size + i)
    (before.toByteArray.size + (i + n)) = _
  rw [ByteArray.extract_append_size_add, ByteArray.extract_append, hnone, ByteArray.append_empty]

/-! ### Parts by their bytes -/

/-- Of the bytes of a prefix, `upTo` keeps just the prefix. -/
theorem upTo_bytes_eq {p : List Char} (h : p <+: t) : upTo (bytes p) t = p := by
  have htake := upTo_bytes_take p.length t
  rwa [← List.prefix_iff_eq_take.mp h] at htake

/-- Of two prefixes, the one with fewer bytes is a prefix of the other. -/
theorem prefix_of_bytes_le {p q : List Char} (hp : p <+: t) (hq : q <+: t) (h : bytes p ≤ bytes q) :
    p <+: q := by
  have hkept := upTo_maximal hp h
  rwa [upTo_bytes_eq hq] at hkept

theorem upTo_prefix_upTo (t : List Char) {a b : Nat} (h : a ≤ b) : upTo a t <+: upTo b t :=
  upTo_maximal (prefix_upTo a t) (Nat.le_trans (bytes_upTo_le a t) h)

/-- The part of a text between two bytes has the bytes between them, and stands behind those before
them. -/
theorem between?_eq_some_iff {a b : Nat} {u : List Char} :
    between? t a b = some u ↔
      ∃ before after, t = before ++ (u ++ after) ∧ bytes before = a ∧ a + bytes u = b := by
  unfold between?
  dsimp only
  constructor
  · intro h
    obtain ⟨⟨ha, hb, hab⟩, h⟩ := Option.ite_none_right_eq_some.mp h
    cases h
    obtain ⟨more, hmore⟩ := upTo_prefix_upTo t hab
    obtain ⟨after, hafter⟩ := prefix_upTo b t
    have hdrop : (upTo b t).drop (upTo a t).length = more := by rw [← hmore, List.drop_left]
    rw [hdrop]
    refine ⟨upTo a t, after, ?_, ha, ?_⟩
    · rw [← List.append_assoc, hmore, hafter]
    · rw [← hmore, bytes_append, ha] at hb
      exact hb
  · rintro ⟨before, after, rfl, rfl, rfl⟩
    have hstart : upTo (bytes before) (before ++ (u ++ after)) = before :=
      upTo_bytes_eq (List.prefix_append _ _)
    have hstop : upTo (bytes before + bytes u) (before ++ (u ++ after)) = before ++ u := by
      rw [← bytes_append, ← List.append_assoc]
      exact upTo_bytes_eq (List.prefix_append _ _)
    rw [hstart, hstop, bytes_append, if_pos ⟨rfl, rfl, Nat.le_add_right _ _⟩, List.drop_left]

/-! ### Positions -/

namespace Position

/-- On one line every character is a column. -/
theorem after_of_not_mem (p : Position) (h : '\n' ∉ t) :
    p.after t = ⟨p.line, p.column + t.length⟩ := by
  induction t generalizing p with
  | nil => rfl
  | cons c t ih =>
    have hc : c ≠ '\n' := (List.ne_of_not_mem_cons h).symm
    rw [after_cons, ih _ (List.not_mem_of_not_mem_cons h), next, if_neg hc, List.length_cons]
    show (⟨p.line, p.column + 1 + t.length⟩ : Position) = _
    rw [Nat.add_assoc, Nat.add_comm 1]

/-- Every line feed begins a line. -/
theorem line_after (p : Position) (t : List Char) : (p.after t).line = p.line + t.count '\n' := by
  induction t generalizing p with
  | nil => rfl
  | cons c t ih =>
    rw [after_cons, ih, next]
    split
    · next hc =>
      rw [hc, List.count_cons_self]
      show p.line + 1 + _ = _
      omega
    · next hc => rw [List.count_cons_of_ne hc]

/-- Behind a line feed it does not matter in which column one began. -/
theorem after_eq_of_mem {p q : Position} (hline : p.line = q.line) (h : '\n' ∈ t) :
    p.after t = q.after t := by
  induction t generalizing p q with
  | nil => exact absurd h List.not_mem_nil
  | cons c t ih =>
    rw [after_cons, after_cons]
    by_cases hc : c = '\n'
    · rw [next, next, if_pos hc, if_pos hc, hline]
    · refine ih ?_ ((List.mem_cons.mp h).resolve_left (Ne.symm hc))
      rw [next, next, if_neg hc, if_neg hc]
      exact hline

end Position

/-! ### Stretches of stretches -/

theorem take_stretch (t : List Char) {i j k : Nat} (hk : k ≤ ((t.take j).drop i).length) :
    ((t.take j).drop i).take k = (t.drop i).take k := by
  rw [List.drop_take, List.length_take] at hk
  rw [List.drop_take, List.take_take, Nat.min_eq_left (Nat.le_trans hk (Nat.min_le_left _ _))]

/-- The first characters of a stretch, with what stands before it. -/
theorem take_append_take_stretch (t : List Char) {i j k : Nat}
    (hk : k ≤ ((t.take j).drop i).length) :
    t.take i ++ ((t.take j).drop i).take k = t.take (i + k) := by
  rw [take_stretch t hk, List.take_add]

theorem Location.relative_ofChars (t : List Char) {i j a b : Nat}
    (ha : a ≤ ((t.take j).drop i).length) (hb : b ≤ ((t.take j).drop i).length) :
    let u := (t.take j).drop i
    (Location.ofChars t i j).relative u (bytes (u.take a)) (bytes (u.take b)) =
      .ofChars t (i + a) (i + b) := by
  intro u
  have hfirst : ∀ k, Position.ofOffset t (bytes (t.take k)) = Position.origin.after (t.take k) :=
    fun k => congrArg Position.origin.after (upTo_bytes_take k t)
  have hposition : ∀ k ≤ u.length, (Position.origin.after (t.take i)).after (u.take k) =
      Position.origin.after (t.take (i + k)) := by
    intro k hk
    rw [← Position.after_append, take_append_take_stretch t hk]
  have hbytes : ∀ k ≤ u.length, bytes (t.take i) + bytes (u.take k) = bytes (t.take (i + k)) := by
    intro k hk
    rw [← bytes_append, take_append_take_stretch t hk]
  simp only [Location.relative, Location.ofChars, Location.ofRange, hfirst, upTo_bytes_take,
    hposition a ha, hposition b hb, hbytes a ha, hbytes b hb]

end ViewLint
