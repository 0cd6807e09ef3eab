import ViewLint.Markup.Tag
import ViewLint.Proofs.Encoding
import ViewLint.Proofs.Markup.Cursors

/-!
# Reading by offsets

A view can be read by byte offsets instead of cursors: bytes are looked at one by one, and texts are
cut out between two offsets.  Such a reading can go wrong.  A cut may fall inside of a character or
behind the end of the text, a counter may have nothing to be taken from, and a loop may not come to
an end.  It agrees with a reading by cursors if it never goes wrong there, and ends at the offset of
the character at which the other one ends, or with the diagnostic of its fault.

## Main definitions

* `Markup.Offset.Checked` — what a reading by offsets gives.
* `Markup.Offset.cut`, `Markup.Offset.byteAt?`, `Markup.Offset.skipBytes` — looking at a view.
* `Markup.Source.Holds` — a cursor is in a view.
* `Markup.Offset.Agrees` — a reading by offsets agrees with a reading by cursors.

## Main results

* `Markup.Offset.cut_reads` — what a cursor has read can be cut out.
* `Markup.Offset.skipBytes_isByteOf`, `Markup.Offset.skipBytes_not_isByteOf` — passing over the
  bytes of some ASCII characters, or up to one of them, passes over whole characters.
* `Markup.Offset.Agrees.bind` — two readings, one after the other.
-/

namespace ViewLint

open Text

/-- A text in quotes: the first quote, the text between them, and the second quote. -/
theorem Text.Cursor.reads_quoted {c : Cursor} {quote : Char} {t : List Char} {k : Nat}
    (hrest : c.rest = quote :: t) (hk : indexOf? [quote] t = some k) :
    (c.drop 1).Reads (t.take k) ((c.drop 1).drop k) ∧
      ((c.drop 1).drop k).Reads [quote] (c.drop (k + 2)) ∧
      ((c.drop 1).drop k).pos = c.pos + 1 + k := by
  obtain ⟨hle, hquote⟩ := prefix_of_indexOf? hk
  have hinside : (c.drop 1).rest = t := by rw [drop, hrest]; rfl
  have hlast : ((c.drop 1).drop k).drop 1 = c.drop (k + 2) := by
    rw [drop_drop, drop_drop, Nat.add_comm 1 (k + 1)]
  refine ⟨?_, ?_, ?_⟩
  · rw [← hinside]
    exact reads_drop _ k
  · rw [← hlast]
    refine reads_of_prefix (r := [quote]) ?_
    show [quote] <+: (c.drop 1).rest.drop k
    rwa [hinside]
  · simp [drop, hrest, hle]

namespace Markup

/-! ### Cursors and offsets -/

namespace Source

/-- The offset of character number `i` of a view. -/
def offset (s : Source) (i : Nat) : Nat := bytes (s.text.take i)

/-- A cursor is in a view, and the text ahead of it ends at character number `n`. -/
structure Holds (s : Source) (n : Nat) (c : Cursor) : Prop where
  inside : c.In s.text
  stop : c.stop = n

variable {s : Source} {n : Nat} {c c' : Cursor} {r : List Char}

theorem offset_length (s : Source) : s.offset s.text.length = bytes s.text := by
  rw [offset, List.take_length]

theorem offset_le (s : Source) (i : Nat) : s.offset i ≤ bytes s.text :=
  bytes_mono (List.take_prefix i s.text)

theorem charBoundary_offset (s : Source) (i : Nat) : CharBoundary s.text (s.offset i) :=
  charBoundary_iff.mpr ⟨_, List.take_prefix i s.text, rfl⟩

theorem location_eq_ofRange (s : Source) (i j : Nat) :
    s.location i j = .ofRange s.text (s.offset i) (s.offset j) :=
  s.index.location_eq i j

theorem Holds.reaches (h : s.Holds n c) (h' : c.Reaches c') : s.Holds n c' :=
  ⟨h.inside.reaches h', h'.stop_eq.trans h.stop⟩

theorem holds_start (s : Source) : s.Holds s.text.length ⟨0, s.text⟩ :=
  ⟨Cursor.in_start s.text, Nat.zero_add _⟩

/-- What has been read has the bytes between the two offsets. -/
theorem offset_reads (hc : c.In s.text) (h : c.Reads r c') :
    s.offset c'.pos = s.offset c.pos + bytes r := by
  obtain ⟨before, after, htext, hbefore⟩ := hc
  have hsplit : s.text = (before ++ r) ++ (c'.rest ++ after) := by
    rw [htext, h.rest, List.append_assoc, List.append_assoc]
  have hlength : (before ++ r).length = c'.pos := by
    rw [List.length_append, hbefore, h.pos]
  have hfirst : s.text.take c.pos = before := by rw [htext, List.take_left' hbefore]
  have hsecond : s.text.take c'.pos = before ++ r := by rw [hsplit, List.take_left' hlength]
  rw [offset, offset, hfirst, hsecond, bytes_append]

/-- A name that has been read, by its two offsets. -/
theorem ident_reads (hc : c.In s.text) (h : c.Reads r c') :
    s.ident c.pos c'.pos = ⟨.ofList r, .ofRange s.text (s.offset c.pos) (s.offset c'.pos)⟩ := by
  have htext : String.ofList (s.index.slice c.pos c'.pos) = .ofList r := by
    rw [TextIndex.slice_eq]
    exact (hc.stands h).text.symm
  rw [ident, htext, location_eq_ofRange]

theorem offset_drop (hc : c.In s.text) (n : Nat) :
    s.offset (c.drop n).pos = s.offset c.pos + bytes (c.rest.take n) :=
  offset_reads hc (c.reads_drop n)

/-- The offset behind a character of one byte. -/
theorem offset_drop_one {x : Char} (hc : c.In s.text) (hx : Ascii x) (h : c.rest.head? = some x) :
    s.offset (c.drop 1).pos = s.offset c.pos + 1 := by
  rw [offset_reads hc (Cursor.reads_head h), bytes_cons, hx.utf8Size_eq, bytes_nil]

/-- The offset behind the blanks ahead. -/
theorem offset_trimStart (hc : c.In s.text) :
    s.offset (c.skipWhile isBlank).pos =
      s.offset c.pos + (bytes c.rest - bytes (trimStart c.rest)) := by
  have hread : c.Reads (c.rest.takeWhile isBlank) (c.skipWhile isBlank) :=
    Cursor.reads_of_prefix (List.takeWhile_prefix isBlank)
  have hbytes : bytes (c.rest.takeWhile isBlank) + bytes (trimStart c.rest) = bytes c.rest := by
    rw [← bytes_append, trimStart, List.takeWhile_append_dropWhile]
  rw [offset_reads hc hread]
  omega

/-- The end of the view is the offset of its end. -/
theorem Holds.bytes_eq (h : s.Holds s.text.length c) : bytes s.text = s.offset c.toEnd.pos := by
  rw [← s.offset_length, ← h.stop]
  rfl

theorem Holds.offset_stop (h : s.Holds n c) : s.offset n = s.offset c.pos + bytes c.rest := by
  have hread : c.Reads c.rest c.toEnd := ⟨(List.append_nil _).symm, rfl⟩
  rw [← offset_reads h.inside hread, ← h.stop]
  rfl

/-- Nothing is ahead of a cursor exactly if its offset is the last one. -/
theorem Holds.offset_stop_le_iff (h : s.Holds n c) : s.offset n ≤ s.offset c.pos ↔ c.rest = [] := by
  rw [h.offset_stop]
  cases c.rest with
  | nil => simp
  | cons x rest =>
    have hpos := Char.utf8Size_pos x
    refine iff_of_false ?_ (List.cons_ne_nil x rest)
    rw [bytes_cons]
    omega

/-- A cursor of which the text ahead ends with the view has bytes ahead exactly if something is. -/
theorem Holds.lt_iff (h : s.Holds s.text.length c) :
    s.offset c.pos < bytes s.text ↔ c.rest ≠ [] := by
  rw [← Nat.not_le, ← s.offset_length, ne_eq, h.offset_stop_le_iff]

theorem offset_of_rest_eq_nil (hrest : c.rest = []) :
    s.offset c.pos = s.offset c.toEnd.pos := by
  rw [Cursor.toEnd, Cursor.stop, hrest]
  rfl

theorem offset_lt (hc : c'.In s.text) (h : c.pos < c'.pos) : s.offset c.pos < s.offset c'.pos := by
  have hle : c'.pos ≤ c'.stop := Nat.le_add_right _ _
  exact bytes_take_lt h (Nat.le_trans hle hc.stop_le)

/-- An offset between characters is that of a cursor. -/
theorem exists_holds_of_charBoundary {pos : Nat} (h : CharBoundary s.text pos) :
    ∃ c, s.Holds s.text.length c ∧ s.offset c.pos = pos := by
  obtain ⟨u, ⟨r, hr⟩, rfl⟩ := charBoundary_iff.mp h
  refine ⟨⟨u.length, r⟩, ⟨⟨u, [], by rw [List.append_nil, hr], rfl⟩, ?_⟩, ?_⟩
  · rw [← hr, List.length_append]
    rfl
  · rw [offset, ← hr, List.take_left' rfl]

/-- What is ahead of a cursor is the end of the view, if it ends there. -/
theorem Holds.exists_eq (h : s.Holds s.text.length c) :
    ∃ before, s.text = before ++ c.rest ∧ bytes before = s.offset c.pos := by
  obtain ⟨⟨before, after, htext, hbefore⟩, hstop⟩ := h
  have hlength := congrArg List.length htext
  rw [Cursor.stop] at hstop
  rw [List.length_append, List.length_append] at hlength
  obtain rfl : after = [] := List.length_eq_zero_iff.mp (by omega)
  rw [List.append_nil] at htext
  refine ⟨before, htext, ?_⟩
  rw [offset, htext, List.take_left' hbefore]

/-- A cursor can look ahead to the end of the view. -/
theorem Holds.widen (h : s.Holds n c) :
    ∃ after, s.Holds s.text.length ⟨c.pos, c.rest ++ after⟩ := by
  obtain ⟨⟨before, after, htext, hbefore⟩, -⟩ := h
  refine ⟨after, ⟨before, [], by rw [List.append_nil, htext], hbefore⟩, ?_⟩
  rw [htext, List.length_append, ← hbefore]
  rfl

end Source

/-! ### Readings that can go wrong -/

namespace Offset

/-- What a reading by offsets gives: an answer, or a diagnostic if the markup is malformed, or
nothing if the reading goes wrong. -/
abbrev Checked (α : Type) : Type := ExceptT Diagnostic Option α

/-- A reading goes wrong. -/
def wrong {α : Type} : Checked α := (none : Option (Except Diagnostic α))

/-- The text of a view from one offset to another. -/
def cut (s : Source) (start stop : Nat) : Checked (List Char) :=
  ExceptT.lift (between? s.text start stop)

/-- The text of a view from an offset on. -/
def cutFrom (s : Source) (start : Nat) : Checked (List Char) := cut s start (bytes s.text)

/-- The place of a view from one offset to another. -/
def place (s : Source) (start stop : Nat) : Checked Location :=
  ExceptT.lift (locate? s.text start stop)

/-- The byte of a view at an offset, if there is one. -/
def byteAt? (s : Source) (pos : Nat) : Option UInt8 := (encode s.text)[pos]?

/-- Moves an offset over the bytes that satisfy a predicate. -/
def skipBytes (s : Source) (p : UInt8 → Bool) (pos : Nat) : Nat :=
  pos + (((encode s.text).drop pos).takeWhile p).length

/-- The diagnostic on a place of a view. -/
def report (s : Source) (place : Location) (expected : Expected) (found : Found)
    (construct : Construct) : Diagnostic :=
  .ofKind .malformedMarkup s.file (some place) [expected.text, found.text, construct.text]

/-- Stops at an offset, at which a character or the end of the view is found. -/
def stopAt {α : Type} (s : Source) (pos : Nat) (expected : Expected) (construct : Construct) :
    Checked α := do
  let ahead ← cutFrom s (min pos (bytes s.text))
  let found := (ahead.head?.map Found.char).getD .endOfInput
  let covered ← place s pos (min (pos + found.text.utf8ByteSize) (bytes s.text))
  throw (report s covered expected found construct)

variable {s : Source} {n : Nat} {c c' : Cursor} {r : List Char}

theorem place_eq (s : Source) (start stop : Nat) :
    place s start stop = pure (.ofRange s.text start stop) := by
  rw [place, locate?_eq]
  rfl

/-- What a cursor has read can be cut out. -/
theorem cut_reads (hc : c.In s.text) (h : c.Reads r c') :
    cut s (s.offset c.pos) (s.offset c'.pos) = pure r := by
  obtain ⟨before, after, htext, hbefore⟩ := id hc
  have hfirst : bytes before = s.offset c.pos := by
    rw [Source.offset, htext, List.take_left' hbefore]
  have hcut : between? s.text (s.offset c.pos) (s.offset c'.pos) = some r :=
    between?_eq_some_iff.mpr
      ⟨before, c'.rest ++ after, by rw [htext, h.rest, List.append_assoc], hfirst,
        (Source.offset_reads hc h).symm⟩
  rw [cut, hcut]
  rfl

theorem cut_rest (h : s.Holds n c) : cut s (s.offset c.pos) (s.offset n) = pure c.rest := by
  have hread : c.Reads c.rest c.toEnd := ⟨(List.append_nil _).symm, rfl⟩
  rw [← h.stop]
  exact cut_reads h.inside hread

theorem cutFrom_rest (h : s.Holds s.text.length c) : cutFrom s (s.offset c.pos) = pure c.rest := by
  rw [cutFrom, ← s.offset_length, cut_rest h]

theorem drop_encode (h : s.Holds s.text.length c) :
    (encode s.text).drop (s.offset c.pos) = encode c.rest := by
  obtain ⟨before, htext, hbefore⟩ := h.exists_eq
  rw [htext, encode_append, List.drop_left' (by rw [length_encode, hbefore])]

theorem byteAt?_eq (h : s.Holds s.text.length c) :
    byteAt? s (s.offset c.pos) = (encode c.rest).head? := by
  rw [byteAt?, ← drop_encode h, List.head?_drop]

/-- The byte at the offset of a cursor tells whether an ASCII character is ahead. -/
theorem byteAt?_eq_some_iff {x : Char} (h : s.Holds s.text.length c) (hx : Ascii x) :
    byteAt? s (s.offset c.pos) = some x.toUInt8 ↔ c.rest.head? = some x := by
  rw [byteAt?_eq h, head?_encode hx]

/-- Passing over bytes is passing over characters, if the bytes of each character go together. -/
theorem skipBytes_eq {p : UInt8 → Bool} {q : Char → Bool} (h : s.Holds s.text.length c)
    (hp : ∀ x, ∀ b ∈ String.utf8EncodeChar x, p b = q x) :
    skipBytes s p (s.offset c.pos) = s.offset (c.skipWhile q).pos := by
  have hread : c.Reads (c.rest.takeWhile q) (c.skipWhile q) :=
    Cursor.reads_of_prefix (List.takeWhile_prefix q)
  rw [skipBytes, drop_encode h, takeWhile_encode hp, length_encode,
    Source.offset_reads h.inside hread]

section

variable {xs : List Char} {p : Char → Bool}

/-- Passing over some ASCII characters. -/
theorem skipBytes_isByteOf (h : s.Holds s.text.length c) (hxs : ∀ y ∈ xs, Ascii y)
    (hp : ∀ x, xs.contains x = p x) :
    skipBytes s (isByteOf xs) (s.offset c.pos) = s.offset (c.skipWhile p).pos :=
  skipBytes_eq h fun x _ hb => (isByteOf_eq hxs hb).trans (hp x)

/-- Passing over all characters up to some of ASCII. -/
theorem skipBytes_not_isByteOf (h : s.Holds s.text.length c) (hxs : ∀ y ∈ xs, Ascii y)
    (hp : ∀ x, xs.contains x = p x) :
    skipBytes s (!isByteOf xs ·) (s.offset c.pos) = s.offset (c.skipWhile (!p ·)).pos :=
  skipBytes_eq h fun x _ hb => congrArg (!·) ((isByteOf_eq hxs hb).trans (hp x))

end

/-! ### Agreement -/

/-- A reading by offsets agrees with a reading by cursors from a cursor on: both give the same
answer and end at the same place, or they stop with a fault and its diagnostic. -/
inductive Agrees {α : Type} (s : Source) (c : Cursor) :
    Checked (α × Nat) → Except Fault (α × Cursor) → Prop
  | read {a : α} {c' : Cursor} {pos : Nat} (hpos : pos = s.offset c'.pos) (h : c.Reaches c') :
    Agrees s c (pure (a, pos)) (.ok (a, c'))
  | fault (f : Fault) : Agrees s c (throw (s.diagnostic f)) (.error f)

section

variable {α β : Type} {x' : Checked (α × Nat)} {x : Except Fault (α × Cursor)}

theorem Agrees.of_ok {a : α} (h : Agrees s c x' (.ok (a, c'))) :
    x' = pure (a, s.offset c'.pos) ∧ c.Reaches c' := by
  cases h with
  | read hpos h => exact ⟨by rw [hpos], h⟩

theorem Agrees.of_error {f : Fault} (h : Agrees s c x' (.error f)) :
    x' = throw (s.diagnostic f) := by
  cases h with
  | fault => rfl

/-- A reading that agrees does not go wrong. -/
theorem Agrees.exists_run (h : Agrees s c x' x) : ∃ r, x'.run = some r := by
  cases h with
  | read hpos h => exact ⟨_, rfl⟩
  | fault f => exact ⟨_, rfl⟩

theorem Agrees.exists_of_run {a : α} {pos : Nat} (h : Agrees s c x' x)
    (hrun : x'.run = some (.ok (a, pos))) :
    ∃ c', x = .ok (a, c') ∧ pos = s.offset c'.pos ∧ c.Reaches c' := by
  cases h with
  | read hpos h =>
    cases hrun
    exact ⟨_, rfl, hpos, h⟩
  | fault f => cases hrun

theorem Agrees.after (h : Agrees s c' x' x) (hreach : c.Reaches c') : Agrees s c x' x := by
  cases h with
  | read hpos h => exact .read hpos (hreach.trans h)
  | fault f => exact .fault f

/-- Two readings, one after the other. -/
theorem Agrees.bind {g' : α × Nat → Checked (β × Nat)} {g : α × Cursor → Except Fault (β × Cursor)}
    (h : Agrees s c x' x)
    (hg : ∀ a c', x = .ok (a, c') → c.Reaches c' →
      Agrees s c' (g' (a, s.offset c'.pos)) (g (a, c'))) :
    Agrees s c (x' >>= g') (x >>= g) := by
  cases h with
  | read hpos h =>
    subst hpos
    exact (hg _ _ rfl h).after h
  | fault f => exact .fault f

/-- Two readings, one after the other, where what the first one gives is only looked at as an answer
with a cursor. -/
theorem Agrees.bind_of_map {γ : Type} {y : Except Fault γ} {f : γ → α × Cursor}
    {g' : α × Nat → Checked (β × Nat)} {g : γ → Except Fault (β × Cursor)}
    (h : Agrees s c x' (y.map f))
    (hg : ∀ a, y = .ok a → c.Reaches (f a).2 →
      Agrees s (f a).2 (g' ((f a).1, s.offset (f a).2.pos)) (g a)) :
    Agrees s c (x' >>= g') (y >>= g) := by
  cases y with
  | error e =>
    rw [show x' = throw (s.diagnostic e) from h.of_error]
    exact .fault e
  | ok a =>
    have h : Agrees s c x' (.ok ((f a).1, (f a).2)) := h
    obtain ⟨heq, hreach⟩ := h.of_ok
    rw [heq]
    exact (hg a rfl hreach).after hreach

theorem Agrees.map (h : Agrees s c x' x) (f : α → β) :
    Agrees s c (x' >>= fun a => pure (f a.1, a.2)) (x.map fun a => (f a.1, a.2)) := by
  cases h with
  | read hpos h => exact .read hpos h
  | fault f => exact .fault f

/-- What is found at a cursor of a view. -/
def found (c : Cursor) (ending : Found) : Found := (c.rest.head?.map Found.char).getD ending

/-- What is found ends behind its bytes, or at the end of the view. -/
theorem offset_found (h : s.Holds s.text.length c) :
    s.offset (c.pos + (found c .endOfInput).width) =
      min (s.offset c.pos + (found c .endOfInput).text.utf8ByteSize) (bytes s.text) := by
  have hstop := h.offset_stop
  rw [s.offset_length] at hstop
  cases hrest : c.rest with
  | nil =>
    have hfound : found c .endOfInput = .endOfInput := by rw [found, hrest]; rfl
    rw [hrest, bytes_nil, Nat.add_zero] at hstop
    rw [hfound, hstop, Nat.min_eq_right (Nat.le_add_right _ _)]
    rfl
  | cons x rest =>
    have hfound : found c .endOfInput = .char x := by rw [found, hrest]; rfl
    have hread : c.Reads [x] (c.drop 1) := Cursor.reads_head (by rw [hrest]; rfl)
    have hsize : (Found.char x).text.utf8ByteSize = bytes [x] := by
      rw [Found.text, utf8ByteSize_ofList]
    have hnext := Source.offset_reads h.inside hread
    have hle := s.offset_le (c.drop 1).pos
    rw [hfound, hsize, ← hnext, Nat.min_eq_left hle, hread.pos]
    rfl

theorem stopAt_eq (h : s.Holds s.text.length c) (expected : Expected) (construct : Construct) :
    (stopAt s (s.offset c.pos) expected construct : Checked α) =
      throw (s.diagnostic ⟨c.pos, expected, found c .endOfInput, construct⟩) := by
  have hmin : min (s.offset c.pos) (bytes s.text) = s.offset c.pos :=
    Nat.min_eq_left (s.offset_le c.pos)
  rw [stopAt, hmin, cutFrom_rest h, pure_bind]
  show (place s (s.offset c.pos)
    (min (s.offset c.pos + (found c .endOfInput).text.utf8ByteSize) (bytes s.text)) >>= _) = _
  rw [← offset_found h, place_eq, pure_bind, ← Source.location_eq_ofRange]
  rfl

theorem agrees_stopAt (h : s.Holds s.text.length c) {c₀ : Cursor} (expected : Expected)
    (construct : Construct) :
    Agrees s c₀ (stopAt s (s.offset c.pos) expected construct : Checked (α × Nat))
      (Markup.stopAt c expected .endOfInput construct) := by
  rw [stopAt_eq h]
  exact .fault _

end

end Offset

end Markup

end ViewLint
