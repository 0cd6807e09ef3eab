import ViewLint.Text.Bytes

/-!
# Locations in a text

A location is a half-open range of bytes together with the line and column of each of
its ends.  Lines count from one, columns from zero and in characters; only a line feed
ends a line.

Offsets, lines and columns are words of 32 bits, and the texts of views and programs have less
than `2 ^ 32` bytes.  So they are plain numbers everywhere, and no sum of offsets of one text
leaves the words.  A length that is not the length of a stretch of the text may do so, and such a
length is added as a word (`offsetBehind`).

## Main definitions

* `Position` — a line and a column; `Position.after p t` is where one stands after
  reading `t` from `p`.
* `Location.ofRange t a b` — the location of a byte range of the text `t`.
* `Location.relative base t a b` — the location of a byte range of a text that itself
  begins at `base`, found by counting inside `t` only.
* `offsetBehind` — an offset that is any number of bytes behind another one.
-/

namespace ViewLint

open Text

/-- A line, counted from one, and a column in characters, counted from zero. -/
structure Position where
  line : Nat
  column : Nat
  deriving DecidableEq, Repr, Inhabited

namespace Position

/-- The position at which every text begins. -/
def origin : Position := ⟨1, 0⟩

/-- The position behind one more character. -/
def next (p : Position) (c : Char) : Position :=
  if c = '\n' then ⟨p.line + 1, 0⟩ else ⟨p.line, p.column + 1⟩

/-- The position reached by reading a text. -/
def after (p : Position) (t : List Char) : Position := t.foldl next p

@[simp] theorem after_nil (p : Position) : p.after [] = p := rfl

@[simp] theorem after_cons (p : Position) (c : Char) (t : List Char) :
    p.after (c :: t) = (p.next c).after t := rfl

@[simp] theorem after_append (p : Position) (s t : List Char) :
    p.after (s ++ t) = (p.after s).after t := by
  simp [after]

/-- The position of a byte offset of a text.  An offset inside a character counts as the
start of that character, one past the end as the end. -/
def ofOffset (t : List Char) (offset : Nat) : Position := origin.after (upTo offset t)

end Position

/-- A half-open byte range with the positions of its ends. -/
structure Location where
  first : Position
  last : Position
  start : Nat
  stop : Nat
  deriving DecidableEq, Repr, Inhabited

namespace Location

/-- The number of bytes covered; none when the range is reversed. -/
def size (l : Location) : Nat := l.stop - l.start

/-- Nothing is covered. -/
def isEmpty (l : Location) : Bool := l.size == 0

/-- The location of the bytes from `start` to `stop` of a text. -/
def ofRange (t : List Char) (start stop : Nat) : Location :=
  ⟨.ofOffset t start, .ofOffset t stop, start, stop⟩

/-- The location of the characters from number `i` to number `j` of a text. -/
def ofChars (t : List Char) (i j : Nat) : Location :=
  ofRange t (bytes (t.take i)) (bytes (t.take j))

/-- The location of the bytes from `start` to `stop` of a text that begins where `base`
begins.  Lines and columns are counted inside the text only. -/
def relative (base : Location) (t : List Char) (start stop : Nat) : Location :=
  ⟨base.first.after (upTo start t), base.first.after (upTo stop t),
    base.start + start, base.start + stop⟩

end Location

/-! ### Offsets as words -/

/-- How many offsets there are for a text of so many bytes: as many as words of 32 bits, unless
the text were longer than texts are. -/
def offsetCount (size : Nat) : Nat := max UInt32.size (size + 1)

/-- The offset that is so many bytes behind another one.  Behind the last word comes the first
one again. -/
def offsetBehind (size offset length : Nat) : Nat := (offset + length) % offsetCount size

theorem offsetBehind_of_lt {size offset length : Nat} (h : offset + length < offsetCount size) :
    offsetBehind size offset length = offset + length :=
  Nat.mod_eq_of_lt h

/-- In a text no offset begins anew. -/
theorem offsetBehind_of_le {size offset length : Nat} (h : offset + length ≤ size) :
    offsetBehind size offset length = offset + length :=
  offsetBehind_of_lt (Nat.lt_of_le_of_lt h (Nat.le_max_right _ _))

/-- For a text as long as texts are, this is the sum of two words. -/
theorem offsetBehind_toNat {size : Nat} (h : size < UInt32.size) (offset length : UInt32) :
    offsetBehind size offset.toNat length.toNat = (offset + length).toNat := by
  have hcount : offsetCount size = UInt32.size := Nat.max_eq_left h
  rw [offsetBehind, hcount, UInt32.toNat_add]

/-- An offset that begins anew is before the one that it should be behind. -/
theorem offsetBehind_lt {size offset length : Nat} (hoffset : offset ≤ size)
    (hlength : length < UInt32.size) (h : offsetCount size ≤ offset + length) :
    offsetBehind size offset length < offset := by
  unfold offsetBehind
  unfold offsetCount at h ⊢
  rw [Nat.mod_eq_sub_mod h, Nat.mod_eq_of_lt (by omega)]
  omega

/-! ### Lines -/

/-- The number of lines of a text: one more than it has line feeds. -/
def lineCount (t : List Char) : Nat := t.count '\n' + 1

end ViewLint
