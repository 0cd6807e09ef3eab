/-!
# Byte sizes of texts

A text is read as a list of characters, while every range that the linter reports
counts UTF-8 bytes.  This module measures texts in bytes and cuts them at byte
offsets without ever splitting a character.

## Main definitions

* `bytes t` — the number of bytes of `t`.
* `upTo n t` — the longest prefix of `t` of at most `n` bytes.
* `between? t a b` — the part of `t` from byte `a` to byte `b`, if both are ends of
  characters of `t`.

## Main results

* `prefix_upTo`, `bytes_upTo_le`, `upTo_maximal` — `upTo n t` is the longest prefix
  of `t` that fits into `n` bytes.
* `bytes_take_le_iff`, `upTo_bytes_take` — how the first characters of a text and its first
  bytes go together.
-/

namespace ViewLint.Text

/-- The number of bytes of a text in UTF-8. -/
def bytes (t : List Char) : Nat := t.foldl (fun n c => n + c.utf8Size) 0

@[simp] theorem bytes_nil : bytes [] = 0 := rfl

/-- Counting on from a number adds it to the bytes of the text. -/
theorem foldl_utf8Size (n : Nat) (t : List Char) :
    t.foldl (fun n c => n + c.utf8Size) n = n + bytes t := by
  induction t generalizing n with
  | nil => rfl
  | cons c t ih =>
    rw [bytes, List.foldl_cons, List.foldl_cons, ih, ih (0 + c.utf8Size)]
    omega

@[simp] theorem bytes_cons (c : Char) (t : List Char) :
    bytes (c :: t) = c.utf8Size + bytes t := by
  rw [bytes, List.foldl_cons, foldl_utf8Size]
  omega

@[simp] theorem bytes_append (s t : List Char) : bytes (s ++ t) = bytes s + bytes t := by
  rw [bytes, List.foldl_append, foldl_utf8Size]
  rfl

/-- The longest prefix of a text that has at most `n` bytes. -/
def upTo : Nat → List Char → List Char
  | _, [] => []
  | n, c :: t => if c.utf8Size ≤ n then c :: upTo (n - c.utf8Size) t else []

/-- What `upTo` keeps is a prefix of the text. -/
theorem prefix_upTo (n : Nat) (t : List Char) : upTo n t <+: t := by
  induction t generalizing n with
  | nil => simp [upTo]
  | cons c t ih =>
    rw [upTo]
    split
    · exact (List.prefix_cons_inj c).mpr (ih _)
    · exact List.nil_prefix

/-- What `upTo` keeps fits into the given number of bytes. -/
theorem bytes_upTo_le (n : Nat) (t : List Char) : bytes (upTo n t) ≤ n := by
  induction t generalizing n with
  | nil => simp [upTo]
  | cons c t ih =>
    rw [upTo]
    split
    · have := ih (n - c.utf8Size)
      rw [bytes_cons]
      omega
    · simp

/-- No longer prefix fits: a prefix of at most `n` bytes is a prefix of `upTo n t`. -/
theorem upTo_maximal {n : Nat} {p t : List Char} (hp : p <+: t) (hn : bytes p ≤ n) :
    p <+: upTo n t := by
  induction t generalizing n p with
  | nil => simp_all [upTo]
  | cons c t ih =>
    cases p with
    | nil => exact List.nil_prefix
    | cons d p =>
      obtain ⟨rfl, htail⟩ := List.cons_prefix_cons.mp hp
      rw [bytes_cons] at hn
      rw [upTo, if_pos (by omega)]
      exact (List.prefix_cons_inj d).mpr (ih htail (by omega))

/-- A prefix of a text has at most as many bytes. -/
theorem bytes_mono {p t : List Char} (h : p <+: t) : bytes p ≤ bytes t := by
  obtain ⟨s, rfl⟩ := h
  simp

/-- The first characters of a text fit into a number of bytes exactly if they are among those
that `upTo` keeps. -/
theorem bytes_take_le_iff {n i : Nat} {t : List Char} (hi : i ≤ t.length) :
    bytes (t.take i) ≤ n ↔ i ≤ (upTo n t).length := by
  constructor
  · intro h
    have := (upTo_maximal (List.take_prefix i t) h).length_le
    simpa [Nat.min_eq_left hi] using this
  · intro h
    have hp : t.take i <+: upTo n t :=
      List.prefix_of_prefix_length_le (List.take_prefix i t) (prefix_upTo n t) (by
        simp only [List.length_take]; omega)
    exact Nat.le_trans (bytes_mono hp) (bytes_upTo_le n t)

/-- The characters that `upTo` keeps are the first ones of the text. -/
theorem take_length_upTo (n : Nat) (t : List Char) : t.take (upTo n t).length = upTo n t :=
  (List.prefix_iff_eq_take.mp (prefix_upTo n t)).symm

/-- Of the bytes of its first characters, `upTo` keeps just these characters. -/
theorem upTo_bytes_take (i : Nat) (t : List Char) : upTo (bytes (t.take i)) t = t.take i := by
  have hp := upTo_maximal (List.take_prefix i t) (Nat.le_refl (bytes (t.take i)))
  have hq := bytes_upTo_le (bytes (t.take i)) t
  obtain ⟨s, hs⟩ := hp
  rw [← hs, bytes_append] at hq
  have hzero : bytes s = 0 := by omega
  have hnil : s = [] := by
    cases s with
    | nil => rfl
    | cons c s =>
      rw [bytes_cons] at hzero
      have := Char.utf8Size_pos c
      omega
  rw [← hs, hnil, List.append_nil]

/-- The part of a text from byte `a` to byte `b`.  There is none when `b` comes before
`a`, lies past the end, or when one of the two falls inside a character. -/
def between? (t : List Char) (a b : Nat) : Option (List Char) :=
  let s := upTo a t
  let e := upTo b t
  if bytes s = a ∧ bytes e = b ∧ a ≤ b then some (e.drop s.length) else none

end ViewLint.Text
