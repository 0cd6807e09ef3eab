import ViewLint.Proofs.Lines

/-!
# Texts as bytes

A text in UTF-8 is a list of bytes.  Those of an ASCII character occur in no other character, so
that such characters can be looked for byte by byte.  The first byte of a character differs from all
that follow in it, so that a look at one byte tells whether an offset is between characters.

## Main definitions

* `Text.encode` — the bytes of a text.
* `Text.Ascii`, `Text.isByteOf` — characters of one byte, and their bytes.
* `Text.isContinuation`, `Text.isBoundary` — offsets between characters, by a look at the byte
  behind.
* `Text.clampBytes` — the last offset between characters up to an offset.

## Main results

* `Text.isByteOf_eq` — the bytes of a character go together, as far as ASCII characters are looked
  for.
* `Text.isBoundary_encode_iff` — a look at one byte tells whether an offset is between characters.
* `Text.clampBytes_encode` — stepping back over bytes comes to the end of whole characters.
-/

namespace ViewLint

namespace Text

/-! ### Bytes -/

/-- The bytes of a text. -/
def encode (t : List Char) : List UInt8 := t.flatMap String.utf8EncodeChar

variable {t : List Char} {x y : Char} {n : Nat}

theorem encode_cons (x : Char) (t : List Char) :
    encode (x :: t) = String.utf8EncodeChar x ++ encode t :=
  List.flatMap_cons

theorem encode_append (t u : List Char) : encode (t ++ u) = encode t ++ encode u :=
  List.flatMap_append

theorem length_encode (t : List Char) : (encode t).length = bytes t := by
  induction t with
  | nil => rfl
  | cons x t ih =>
    rw [encode_cons, List.length_append, String.length_utf8EncodeChar, ih, bytes_cons]

theorem length_le_bytes (t : List Char) : t.length ≤ bytes t := by
  induction t with
  | nil => exact Nat.le_refl 0
  | cons x t ih =>
    have hx := Char.utf8Size_pos x
    rw [List.length_cons, bytes_cons]
    omega

/-- Whether a byte is one of some ASCII characters. -/
def isByteOf (xs : List Char) (b : UInt8) : Bool := xs.any (·.toUInt8 == b)

/-- A character of one byte. -/
def Ascii (x : Char) : Prop := x.toNat < 128

instance (x : Char) : Decidable (Ascii x) := inferInstanceAs (Decidable (_ < _))

theorem Ascii.utf8Size_eq (h : Ascii x) : x.utf8Size = 1 :=
  Char.utf8Size_eq_one_iff.mpr (UInt32.le_iff_toNat_le.mpr (Nat.le_of_lt_succ h))

theorem Ascii.utf8EncodeChar_eq (h : Ascii x) : String.utf8EncodeChar x = [x.toUInt8] :=
  String.utf8EncodeChar_eq_singleton h.utf8Size_eq

theorem Ascii.toNat_toUInt8 (h : Ascii x) : x.toUInt8.toNat = x.toNat :=
  Nat.mod_eq_of_lt (Nat.lt_trans h (by decide))

theorem Ascii.toUInt8_inj (hx : Ascii x) (hy : Ascii y) (h : x.toUInt8 = y.toUInt8) : x = y := by
  have hnat := congrArg UInt8.toNat h
  rw [hx.toNat_toUInt8, hy.toNat_toUInt8] at hnat
  exact Char.toNat_inj.mp hnat

/-- The bytes of all other characters are none of ASCII. -/
theorem le_of_mem_utf8EncodeChar (hx : ¬Ascii x) {b : UInt8} (hb : b ∈ String.utf8EncodeChar x) :
    128 ≤ b.toNat := by
  have hx : ¬x.val.toNat ≤ 127 := fun hle => hx (Nat.lt_succ_of_le hle)
  unfold String.utf8EncodeChar at hb
  simp only [hx, if_false] at hb
  split at hb
  · simp only [List.mem_cons, List.not_mem_nil, or_false] at hb
    rcases hb with rfl | rfl <;> rw [UInt8.toNat_ofNat'] <;> omega
  · split at hb
    · simp only [List.mem_cons, List.not_mem_nil, or_false] at hb
      rcases hb with rfl | rfl | rfl <;> rw [UInt8.toNat_ofNat'] <;> omega
    · simp only [List.mem_cons, List.not_mem_nil, or_false] at hb
      rcases hb with rfl | rfl | rfl | rfl <;> rw [UInt8.toNat_ofNat'] <;> omega

section

variable {xs : List Char}

/-- A character is one of some ASCII characters exactly if its bytes are. -/
theorem isByteOf_eq (hxs : ∀ y ∈ xs, Ascii y) {b : UInt8} (hb : b ∈ String.utf8EncodeChar x) :
    isByteOf xs b = xs.contains x := by
  rw [Bool.eq_iff_iff, isByteOf, List.any_eq_true, List.contains_iff_mem]
  by_cases hx : Ascii x
  · rw [hx.utf8EncodeChar_eq, List.mem_singleton] at hb
    subst hb
    constructor
    · rintro ⟨y, hy, hxy⟩
      rwa [← (hxs y hy).toUInt8_inj hx (beq_iff_eq.mp hxy)]
    · exact fun hmem => ⟨x, hmem, beq_self_eq_true _⟩
  · have hle := le_of_mem_utf8EncodeChar hx hb
    constructor
    · rintro ⟨y, hy, hxy⟩
      have hlt := hxs y hy
      rw [← beq_iff_eq.mp hxy, (hxs y hy).toNat_toUInt8] at hle
      exact absurd hlt (Nat.not_lt.mpr hle)
    · exact fun hmem => absurd (hxs x hmem) hx

/-- Passing over bytes passes over whole characters, if all bytes of a character are passed over or
none. -/
theorem takeWhile_encode {p : UInt8 → Bool} {q : Char → Bool}
    (h : ∀ x, ∀ b ∈ String.utf8EncodeChar x, p b = q x) (t : List Char) :
    (encode t).takeWhile p = encode (t.takeWhile q) := by
  induction t with
  | nil => rfl
  | cons x t ih =>
    rw [encode_cons]
    cases hx : q x with
    | true =>
      rw [List.takeWhile_cons_of_pos hx, encode_cons,
        List.takeWhile_append_of_pos (fun b hb => (h x b hb).trans hx), ih]
    | false =>
      rw [List.takeWhile_cons_of_neg (by simp [hx])]
      cases hbytes : String.utf8EncodeChar x with
      | nil => exact absurd hbytes String.utf8EncodeChar_ne_nil
      | cons b bs =>
        have hb : p b = false := (h x b (by rw [hbytes]; exact List.mem_cons_self)).trans hx
        rw [List.cons_append, List.takeWhile_cons_of_neg (by simp [hb])]
        rfl

/-- The first byte of a text tells whether its first character is one of ASCII. -/
theorem head?_encode (hx : Ascii x) (t : List Char) :
    (encode t).head? = some x.toUInt8 ↔ t.head? = some x := by
  cases t with
  | nil => exact iff_of_false (by simp [encode]) (by simp)
  | cons y t =>
    have hsome : (encode (y :: t)).head? = (String.utf8EncodeChar y).head? := by
      rw [encode_cons, List.head?_append_of_ne_nil _ String.utf8EncodeChar_ne_nil]
    have hsingle : ∀ z ∈ [x], Ascii z := by simpa using hx
    rw [hsome, List.head?_cons, Option.some_inj]
    constructor
    · intro h
      have hbyte := isByteOf_eq hsingle (List.mem_of_head? h)
      simpa [isByteOf, eq_comm] using hbyte
    · rintro rfl
      rw [hx.utf8EncodeChar_eq, List.head?_cons]

end

/-! ### Looking for the ends of characters -/

/-- A byte that goes on with a character. -/
def isContinuation (b : UInt8) : Bool := 128 ≤ b.toNat && b.toNat < 192

/-- Whether an offset is between characters: it is the first one or the last one, or the byte behind
it does not go on with a character. -/
def isBoundary (bs : List UInt8) (n : Nat) : Bool :=
  n == 0 || (bs[n]?).elim (n == bs.length) (!isContinuation ·)

theorem isContinuation_ofNat (h : n < 256) :
    isContinuation (UInt8.ofNat n) = (decide (128 ≤ n) && decide (n < 192)) := by
  rw [isContinuation, UInt8.toNat_ofNat', Nat.mod_eq_of_lt h]

/-- Bytes of six bits with a mark in front go on with a character. -/
theorem isContinuation_of_mem_map (ns : List Nat) :
    ∀ b ∈ ns.map fun n => UInt8.ofNat (n % 64 + 128), isContinuation b = true := by
  intro b hb
  obtain ⟨n, -, rfl⟩ := List.mem_map.mp hb
  rw [isContinuation_ofNat (by omega), Bool.and_eq_true, decide_eq_true_eq, decide_eq_true_eq]
  omega

/-- The bytes of a character: all but the first one go on with it. -/
theorem exists_utf8EncodeChar_eq (x : Char) :
    ∃ b bs, String.utf8EncodeChar x = b :: bs ∧ isContinuation b = false ∧
      ∀ c ∈ bs, isContinuation c = true := by
  have hfirst : ∀ n, n < 128 ∨ 192 ≤ n ∧ n < 256 → isContinuation (UInt8.ofNat n) = false := by
    intro n hn
    rw [isContinuation_ofNat (by omega), Bool.and_eq_false_iff, decide_eq_false_iff_not,
      decide_eq_false_iff_not]
    omega
  let v := x.val.toNat
  unfold String.utf8EncodeChar
  dsimp only
  split
  · exact ⟨_, _, rfl, hfirst _ (by omega), List.forall_mem_nil _⟩
  · split
    · exact ⟨_, _, rfl, hfirst _ (by omega), isContinuation_of_mem_map [v]⟩
    · split
      · exact ⟨_, _, rfl, hfirst _ (by omega), isContinuation_of_mem_map [v / 64, v]⟩
      · exact ⟨_, _, rfl, hfirst _ (by omega), isContinuation_of_mem_map [v / 4096, v / 64, v]⟩

/-- The byte behind an offset tells whether it is between characters, also at the beginning. -/
theorem elim_encode_iff (t : List Char) (n : Nat) :
    ((encode t)[n]?).elim (n == (encode t).length) (!isContinuation ·) = true ↔
      CharBoundary t n := by
  induction t generalizing n with
  | nil => simpa [encode, CharBoundary, upTo] using eq_comm
  | cons x t ih =>
    obtain ⟨b, bs, hbytes, hb, hbs⟩ := exists_utf8EncodeChar_eq x
    have hsize : (String.utf8EncodeChar x).length = x.utf8Size := String.length_utf8EncodeChar x
    rcases Nat.lt_or_ge n x.utf8Size with hlt | hge
    · -- in the first character, only the byte at its beginning does not go on with it
      rw [encode_cons, List.getElem?_append_left (hsize ▸ hlt), hbytes]
      rw [hbytes, List.length_cons] at hsize
      cases n with
      | zero => simpa [hb] using charBoundary_zero (x :: t)
      | succ n =>
        refine iff_of_false ?_ (not_charBoundary_of_lt (Nat.succ_pos n) hlt)
        have hn : n < bs.length := by omega
        rw [List.getElem?_cons_succ, List.getElem?_eq_getElem hn]
        simp [hbs _ (List.getElem_mem hn)]
    · obtain ⟨m, rfl⟩ := Nat.exists_eq_add_of_le hge
      have hend : (x.utf8Size + m == x.utf8Size + (encode t).length) = (m == (encode t).length) :=
        Bool.eq_iff_iff.mpr (by simp)
      rw [encode_cons, charBoundary_cons_add, ← ih, List.getElem?_append_right (by omega), hsize,
        Nat.add_sub_cancel_left, List.length_append, hsize, hend]

/-- A look at one byte tells whether an offset is between characters. -/
theorem isBoundary_encode_iff : isBoundary (encode t) n = true ↔ CharBoundary t n := by
  rw [isBoundary, Bool.or_eq_true, elim_encode_iff, beq_iff_eq]
  exact or_iff_right_of_imp fun h => h ▸ charBoundary_zero t

/-- Steps back from an offset until the byte behind it begins a character. -/
def stepBackBytes (bs : List UInt8) : Nat → Nat
  | 0 => 0
  | n + 1 => if isBoundary bs (n + 1) then n + 1 else stepBackBytes bs n

/-- An offset, or the last one before it that is between characters, found by looking at bytes. -/
def clampBytes (bs : List UInt8) (n : Nat) : Nat := stepBackBytes bs (min n bs.length)

theorem stepBackBytes_encode (t : List Char) (n : Nat) :
    stepBackBytes (encode t) n = stepBack t n := by
  induction n with
  | zero => rfl
  | succ n ih => simp only [stepBackBytes, stepBack, isBoundary_encode_iff, ih]

/-- Looking at bytes, one steps back to the same offset. -/
theorem clampBytes_encode (t : List Char) (n : Nat) : clampBytes (encode t) n = clamp t n := by
  rw [clampBytes, stepBackBytes_encode, length_encode, clamp]

end Text

end ViewLint
