import ViewLint.Location
import ViewLint.Search

/-!
# Indexed texts

A text with the byte offset and the position of each of its characters, so that the place of a
character or of a byte is looked up and not counted out again.

## Main definitions

* `Spot` — an offset with its position.
* `TextIndex t` — the spots of the text `t`.
* `TextIndex.location`, `TextIndex.slice` — the place and the text of a range of characters.
* `TextIndex.positionAt`, `TextIndex.between?` — the same by byte offsets.

## Main results

* `TextIndex.location_eq`, `TextIndex.slice_eq`, `TextIndex.positionAt_eq`,
  `TextIndex.between?_eq` — looking up gives what counting gives.
-/

namespace ViewLint

open Text

/-- A byte offset with its position. -/
structure Spot where
  offset : Nat
  position : Position
  deriving DecidableEq, Repr, Inhabited

namespace Spot

/-- The spot at which every text begins. -/
def origin : Spot := ⟨0, .origin⟩

/-- The spot behind one more character. -/
def next (s : Spot) (c : Char) : Spot := ⟨s.offset + c.utf8Size, s.position.next c⟩

/-- The spot behind a text. -/
def after (s : Spot) (t : List Char) : Spot := ⟨s.offset + bytes t, s.position.after t⟩

@[simp] theorem after_nil (s : Spot) : s.after [] = s := rfl

@[simp] theorem after_cons (s : Spot) (c : Char) (t : List Char) :
    s.after (c :: t) = (s.next c).after t := by
  simp [after, next, Nat.add_assoc]

/-- The spots before each character of a text that begins at a given one, and at its end,
behind those found before. -/
def allFrom (found : Array Spot) (s : Spot) : List Char → Array Spot
  | [] => found.push s
  | c :: t => allFrom (found.push s) (s.next c) t

/-- The spots before each character of a text, and at its end. -/
def all (t : List Char) : Array Spot := allFrom #[] origin t

theorem size_allFrom (found : Array Spot) (s : Spot) (t : List Char) :
    (allFrom found s t).size = found.size + t.length + 1 := by
  induction t generalizing found s with
  | nil => simp [allFrom]
  | cons c t ih =>
    rw [allFrom, ih, Array.size_push, List.length_cons]
    omega

theorem getElem?_allFrom_of_lt {found : Array Spot} {s : Spot} {t : List Char} {i : Nat}
    (h : i < found.size) : (allFrom found s t)[i]? = found[i]? := by
  induction t generalizing found s with
  | nil => rw [allFrom, Array.getElem?_push, if_neg (Nat.ne_of_lt h)]
  | cons c t ih =>
    rw [allFrom, ih (by rw [Array.size_push]; omega), Array.getElem?_push,
      if_neg (Nat.ne_of_lt h)]

theorem getElem?_allFrom {found : Array Spot} {s : Spot} {t : List Char} {i : Nat}
    (h : i ≤ t.length) : (allFrom found s t)[found.size + i]? = some (s.after (t.take i)) := by
  induction t generalizing found s i with
  | nil =>
    obtain rfl : i = 0 := by simpa using h
    simp [allFrom]
  | cons c t ih =>
    cases i with
    | zero =>
      rw [allFrom, getElem?_allFrom_of_lt (by simp)]
      simp
    | succ i =>
      have hi : i ≤ t.length := by simpa using h
      have := @ih (found.push s) (s.next c) i hi
      rw [Array.size_push] at this
      rw [allFrom, List.take_succ_cons, after_cons, ← this]
      congr 1
      omega

@[simp] theorem size_all (t : List Char) : (all t).size = t.length + 1 := by
  simp [all, size_allFrom]

theorem getElem?_all {t : List Char} {i : Nat} (h : i ≤ t.length) :
    (all t)[i]? = some (origin.after (t.take i)) := by
  simpa [all] using @getElem?_allFrom #[] origin t i h

end Spot

/-- A text with the spots of its characters. -/
structure TextIndex (t : List Char) where
  chars : Array Char
  spots : Array Spot
  chars_eq : chars = t.toArray
  spots_eq : spots = Spot.all t

namespace TextIndex

variable {t : List Char}

/-- The index of a text. -/
def of (t : List Char) : TextIndex t := ⟨t.toArray, Spot.all t, rfl, rfl⟩

/-! ### By characters -/

/-- The spot before character number `i`, or at the end if there are not so many. -/
def spot (x : TextIndex t) (i : Nat) : Spot := x.spots[min i x.chars.size]?.getD .origin

/-- The place of the characters from number `i` to number `j`. -/
def location (x : TextIndex t) (i j : Nat) : Location :=
  ⟨(x.spot i).position, (x.spot j).position, (x.spot i).offset, (x.spot j).offset⟩

/-- The characters from number `i` to number `j`. -/
def slice (x : TextIndex t) (i j : Nat) : List Char := (x.chars.extract i j).toList

theorem spot_eq (x : TextIndex t) (i : Nat) : x.spot i = Spot.origin.after (t.take i) := by
  have hsize : x.chars.size = t.length := by simp [x.chars_eq]
  rw [spot, x.spots_eq, hsize, Spot.getElem?_all (Nat.min_le_right i t.length)]
  rcases Nat.le_total i t.length with h | h
  · simp [Nat.min_eq_left h]
  · simp [Nat.min_eq_right h, List.take_of_length_le h]

/-- Looking up a location gives what counting gives. -/
theorem location_eq (x : TextIndex t) (i j : Nat) : x.location i j = Location.ofChars t i j := by
  simp [location, spot_eq, Location.ofChars, Location.ofRange, Position.ofOffset,
    upTo_bytes_take, Spot.after, Spot.origin]

/-- Looking up a range of characters gives the characters of the text. -/
theorem slice_eq (x : TextIndex t) (i j : Nat) : x.slice i j = (t.take j).drop i := by
  simp [slice, x.chars_eq, List.extract_eq_take_drop, List.drop_take]

/-! ### By bytes -/

/-- The number of the character that holds a byte, or of the end of the text. -/
def charAt (x : TextIndex t) (offset : Nat) : Nat :=
  bisect (fun s => s.offset ≤ offset) x.spots - 1

/-- The position of a byte offset. -/
def positionAt (x : TextIndex t) (offset : Nat) : Position := (x.spot (x.charAt offset)).position

/-- The part of the text from byte `a` to byte `b`, if both are ends of characters. -/
def between? (x : TextIndex t) (a b : Nat) : Option (List Char) :=
  let i := x.charAt a
  let j := x.charAt b
  if (x.spot i).offset = a ∧ (x.spot j).offset = b ∧ a ≤ b then some (x.slice i j) else none

/-- The characters before a byte are those that fit in front of it. -/
theorem charAt_eq (x : TextIndex t) (offset : Nat) : x.charAt offset = (upTo offset t).length := by
  have hlen : (upTo offset t).length ≤ t.length := (prefix_upTo offset t).length_le
  have hfound : bisect (fun s : Spot => s.offset ≤ offset) x.spots =
      (upTo offset t).length + 1 := by
    rw [x.spots_eq]
    refine bisect_eq (by simp [hlen]) fun i hi => ?_
    have hi' : i ≤ t.length := by simpa [Nat.lt_succ_iff] using hi
    rw [Spot.getElem?_all hi']
    simp only [Option.any_some, Spot.after, Spot.origin, Nat.zero_add, bytes_take_le_iff hi',
      Nat.lt_succ_iff]
  rw [charAt, hfound, Nat.add_sub_cancel]

/-- Looking up a position gives what counting gives. -/
theorem positionAt_eq (x : TextIndex t) (offset : Nat) :
    x.positionAt offset = Position.ofOffset t offset := by
  simp [positionAt, charAt_eq, spot_eq, take_length_upTo, Position.ofOffset, Spot.after,
    Spot.origin]

/-- Looking up a part of the text gives what counting gives. -/
theorem between?_eq (x : TextIndex t) (a b : Nat) : x.between? a b = Text.between? t a b := by
  simp [between?, charAt_eq, spot_eq, slice_eq, take_length_upTo, Text.between?, Spot.after,
    Spot.origin]

end TextIndex

end ViewLint
