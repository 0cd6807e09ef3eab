import ViewLint.Markup.Fault
import ViewLint.Proofs.Excerpt

/-!
# Cursors and what they have read

A cursor is in a text if what is ahead of it stands there, at the place of the cursor.  To read is
to move a cursor over some characters; what has been read is then the stretch of the text between
the two places.

## Main definitions

* `Stands` — a text is the stretch of another one from one character to another.
* `Row` — things that stand one behind the other.
* `Text.Cursor.In` — a cursor is in a text.
* `Text.Cursor.Reads`, `Text.Cursor.Reaches` — a cursor has been moved over some characters.

## Main results

* `Stands.between?_eq` — a stretch by its bytes.
* `Row.append`, `Row.pairwise` — rows.
* `Text.Cursor.In.stands` — what has been read is a stretch of the text.
* `Text.reads_of_indexOf?` — moving to the first occurrence of a text.
-/

namespace ViewLint

open Text

/-! ### Stretches by characters -/

/-- A text is the stretch of another one from character number `i` to character number `j`, and has
its place. -/
structure Stands (t : List Char) (s : String) (l : Location) (i j : Nat) : Prop where
  le : i ≤ j
  le_length : j ≤ t.length
  text : s = .ofList ((t.take j).drop i)
  location : l = .ofChars t i j

section

variable {t : List Char} {s : String} {l : Location} {i j k : Nat}

theorem Stands.excerpt (h : Stands t s l i j) : Excerpt t s l :=
  ⟨i, j, h.le, h.text, h.location⟩

theorem bytes_take_mono (t : List Char) (h : i ≤ j) : bytes (t.take i) ≤ bytes (t.take j) :=
  bytes_mono (List.take_prefix_take_left h)

/-- Further characters have further bytes. -/
theorem bytes_take_lt (h : i < j) (hj : j ≤ t.length) : bytes (t.take i) < bytes (t.take j) := by
  have hi : i < t.length := Nat.lt_of_lt_of_le h hj
  have hstep : bytes (t.take (i + 1)) = bytes (t.take i) + t[i].utf8Size := by
    rw [List.take_succ_eq_append_getElem hi, bytes_append, bytes_cons, bytes_nil, Nat.add_zero]
  have hpos := Char.utf8Size_pos t[i]
  have hle : bytes (t.take (i + 1)) ≤ bytes (t.take j) := bytes_take_mono t h
  omega

/-- The bytes between two characters are those of the characters between them. -/
theorem between?_take (h : i ≤ j) (hj : j ≤ t.length) :
    between? t (bytes (t.take i)) (bytes (t.take j)) = some ((t.take j).drop i) := by
  have hi : (t.take i).length = i := List.length_take_of_le (Nat.le_trans h hj)
  unfold between?
  dsimp only
  rw [upTo_bytes_take, upTo_bytes_take, hi, if_pos ⟨rfl, rfl, bytes_take_mono t h⟩]

theorem Stands.length_eq (h : Stands t s l i j) : s.toList.length = j - i := by
  rw [h.text, String.toList_ofList, List.length_drop, List.length_take_of_le h.le_length]

/-- A stretch of a stretch, with its place counted from the beginning of the first one. -/
theorem Stands.stretch (h : Stands t s l i j) {a b : Nat} (hab : a ≤ b) (hb : b ≤ s.toList.length) :
    Stands t (.ofList ((s.toList.take b).drop a))
      (l.relative s.toList (bytes (s.toList.take a)) (bytes (s.toList.take b)))
      (i + a) (i + b) := by
  have hlength := h.length_eq
  obtain ⟨hij, hj, rfl, rfl⟩ := h
  rw [String.toList_ofList] at hb hlength ⊢
  refine ⟨Nat.add_le_add_left hab i, by omega, ?_,
    Location.relative_ofChars t (Nat.le_trans hab hb) hb⟩
  have hstretch : (t.take (i + b)).drop (i + a) = ((t.drop i).take b).drop a := by
    rw [← List.drop_drop, List.drop_take, Nat.add_sub_cancel_left]
  rw [hstretch, take_stretch t hb]

theorem Stands.between?_eq (h : Stands t s l i j) :
    between? t l.start l.stop = some s.toList ∧ l = .ofRange t l.start l.stop := by
  rw [h.location, h.text, String.toList_ofList]
  exact ⟨between?_take h.le h.le_length, rfl⟩

end

/-! ### Rows -/

/-- Things one behind the other, from one place to another, where `P` says where each of them
stands. -/
def Row {α : Type} (P : α → Nat → Nat → Prop) (last : Nat) : Nat → List α → Prop
  | first, [] => first ≤ last
  | first, x :: xs => ∃ i j, first ≤ i ∧ i ≤ j ∧ P x i j ∧ Row P last j xs

namespace Row

variable {α β : Type} {P Q : α → Nat → Nat → Prop} {first middle last : Nat} {xs ys : List α}

theorem le (h : Row P last first xs) : first ≤ last := by
  induction xs generalizing first with
  | nil => exact h
  | cons x xs ih =>
    obtain ⟨i, j, hfirst, hij, -, hrest⟩ := h
    have := ih hrest
    omega

theorem mono (h : Row P last middle xs) (hfirst : first ≤ middle) : Row P last first xs := by
  cases xs with
  | nil => exact Nat.le_trans hfirst h
  | cons x xs =>
    obtain ⟨i, j, hi, hij, hx, hrest⟩ := h
    exact ⟨i, j, Nat.le_trans hfirst hi, hij, hx, hrest⟩

theorem append (h : Row P middle first xs) (h' : Row P last middle ys) :
    Row P last first (xs ++ ys) := by
  induction xs generalizing first with
  | nil => exact h'.mono h
  | cons x xs ih =>
    obtain ⟨i, j, hi, hij, hx, hrest⟩ := h
    exact ⟨i, j, hi, hij, hx, ih hrest⟩

/-- A row in a wider stretch. -/
theorem widen {first' last' : Nat} (h : Row P last' first' xs) (hfirst : first ≤ first')
    (hlast : last' ≤ last) : Row P last first xs := by
  have hrow := (h.mono hfirst).append (show Row P last last' [] from hlast)
  rwa [List.append_nil] at hrow

theorem bounds (h : Row P last first xs) {x : α} (hx : x ∈ xs) :
    ∃ i j, first ≤ i ∧ i ≤ j ∧ j ≤ last ∧ P x i j := by
  induction xs generalizing first with
  | nil => cases hx
  | cons y ys ih =>
    obtain ⟨i, j, hi, hij, hy, hrest⟩ := h
    rcases List.mem_cons.mp hx with rfl | hx
    · exact ⟨i, j, hi, hij, hrest.le, hy⟩
    · obtain ⟨k, l, hk, hkl, hl, hP⟩ := ih hrest hx
      exact ⟨k, l, by omega, hkl, hl, hP⟩

theorem pairwise (h : Row P last first xs) :
    xs.Pairwise fun x y => ∃ i j k l, P x i j ∧ P y k l ∧ j ≤ k := by
  induction xs generalizing first with
  | nil => exact .nil
  | cons x xs ih =>
    obtain ⟨i, j, -, -, hx, hrest⟩ := h
    refine List.pairwise_cons.mpr ⟨?_, ih hrest⟩
    intro y hy
    obtain ⟨k, l, hk, -, -, hP⟩ := hrest.bounds hy
    exact ⟨i, j, k, l, hx, hP, hk⟩

/-- The members of a row stand where the row does. -/
theorem within {least : Nat} (h : Row P last first xs) (hfirst : least ≤ first) :
    Row (fun x i j => P x i j ∧ least ≤ i ∧ j ≤ last) last first xs := by
  induction xs generalizing first with
  | nil => exact h
  | cons x xs ih =>
    obtain ⟨i, j, hi, hij, hx, hrest⟩ := h
    exact ⟨i, j, hi, hij, ⟨hx, Nat.le_trans hfirst hi, hrest.le⟩, ih hrest (by omega)⟩

/-- What is made of the members of a row, a row of each. -/
theorem flatMap {Q : β → Nat → Nat → Prop} {f : α → List β} (h : Row P last first xs)
    (hf : ∀ x i j, i ≤ j → P x i j → Row Q j i (f x)) : Row Q last first (xs.flatMap f) := by
  induction xs generalizing first with
  | nil => exact h
  | cons x xs ih =>
    obtain ⟨i, j, hi, hij, hx, hrest⟩ := h
    rw [List.flatMap_cons]
    exact ((hf x i j hij hx).mono hi).append (ih hrest)

/-- What is left of the members of a row, each in its place. -/
theorem filterMap {Q : β → Nat → Nat → Prop} {f : α → Option β} (h : Row P last first xs)
    (hf : ∀ x y i j, P x i j → f x = some y → Q y i j) : Row Q last first (xs.filterMap f) := by
  induction xs generalizing first with
  | nil => exact h
  | cons x xs ih =>
    obtain ⟨i, j, hi, hij, hx, hrest⟩ := h
    cases hfx : f x with
    | none =>
      rw [List.filterMap_cons_none hfx]
      exact (ih hrest).mono (Nat.le_trans hi hij)
    | some y =>
      rw [List.filterMap_cons_some hfx]
      exact ⟨i, j, hi, hij, hf x y i j hx hfx, ih hrest⟩

end Row

/-! ### Cursors -/

namespace Text.Cursor

variable {t r r' : List Char} {c c' c'' : Cursor}

/-- What is ahead of the cursor stands in the text at its place, perhaps with more behind it. -/
def In (t : List Char) (c : Cursor) : Prop :=
  ∃ before after, t = before ++ (c.rest ++ after) ∧ before.length = c.pos

theorem in_start (t : List Char) : In t ⟨0, t⟩ := ⟨[], [], by simp, rfl⟩

theorem In.stop_le (h : c.In t) : c.stop ≤ t.length := by
  obtain ⟨before, after, rfl, hbefore⟩ := h
  simp only [stop, List.length_append]
  omega

/-- The end of the cursor's text can be moved forward. -/
theorem In.shorten (h : c.In t) (hr : r <+: c.rest) : In t ⟨c.pos, r⟩ := by
  obtain ⟨before, after, rfl, hbefore⟩ := h
  obtain ⟨more, hmore⟩ := hr
  exact ⟨before, more ++ after, by rw [← hmore, List.append_assoc], hbefore⟩

/-- One cursor is another one behind some characters. -/
structure Reads (c : Cursor) (r : List Char) (c' : Cursor) : Prop where
  rest : c.rest = r ++ c'.rest
  pos : c'.pos = c.pos + r.length

theorem Reads.refl (c : Cursor) : c.Reads [] c := ⟨rfl, rfl⟩

theorem Reads.trans (h : c.Reads r c') (h' : c'.Reads r' c'') : c.Reads (r ++ r') c'' := by
  refine ⟨?_, ?_⟩
  · rw [h.rest, h'.rest, List.append_assoc]
  · rw [h'.pos, h.pos, List.length_append, Nat.add_assoc]

theorem drop_drop (c : Cursor) (m n : Nat) : (c.drop m).drop n = c.drop (m + n) := by
  simp only [drop, List.length_take, List.length_drop, List.drop_drop, Cursor.mk.injEq, and_true]
  omega

theorem reads_drop (c : Cursor) (n : Nat) : c.Reads (c.rest.take n) (c.drop n) :=
  ⟨(List.take_append_drop n c.rest).symm, rfl⟩

/-- Moving over characters that are known to be ahead. -/
theorem reads_of_prefix (h : r <+: c.rest) : c.Reads r (c.drop r.length) := by
  have hread := c.reads_drop r.length
  rwa [← List.prefix_iff_eq_take.mp h] at hread

theorem reads_head {x : Char} (h : c.rest.head? = some x) : c.Reads [x] (c.drop 1) := by
  obtain ⟨rest, hrest⟩ := List.head?_eq_some_iff.mp h
  exact reads_of_prefix (r := [x]) ⟨rest, hrest.symm⟩

theorem In.reads (hc : c.In t) (h : c.Reads r c') : c'.In t := by
  obtain ⟨before, after, rfl, hbefore⟩ := hc
  refine ⟨before ++ r, after, ?_, ?_⟩
  · simp [h.rest]
  · rw [List.length_append, hbefore, h.pos]

/-- What has been read is a stretch of the text. -/
theorem In.stands (hc : c.In t) (h : c.Reads r c') :
    Stands t (.ofList r) (.ofChars t c.pos c'.pos) c.pos c'.pos := by
  have hstop := (hc.reads h).stop_le
  have hle : c'.pos ≤ c'.stop := Nat.le_add_right _ _
  refine ⟨?_, Nat.le_trans hle hstop, ?_, rfl⟩
  · rw [h.pos]
    exact Nat.le_add_right _ _
  · obtain ⟨before, after, rfl, hbefore⟩ := hc
    have hsplit : before ++ (c.rest ++ after) = (before ++ r) ++ (c'.rest ++ after) := by
      simp [h.rest]
    have hlength : (before ++ r).length = c'.pos := by
      rw [List.length_append, hbefore, h.pos]
    rw [hsplit, List.take_left' hlength, List.drop_left' hbefore]

/-! ### Places that are reached -/

/-- One cursor is another one that has been moved on in its text. -/
def Reaches (c c' : Cursor) : Prop := ∃ r, c.Reads r c'

theorem Reads.reaches (h : c.Reads r c') : c.Reaches c' := ⟨r, h⟩

theorem Reaches.refl (c : Cursor) : c.Reaches c := ⟨[], .refl c⟩

theorem Reaches.trans (h : c.Reaches c') (h' : c'.Reaches c'') : c.Reaches c'' := by
  obtain ⟨r, hr⟩ := h
  obtain ⟨r', hr'⟩ := h'
  exact ⟨r ++ r', hr.trans hr'⟩

theorem reaches_drop (c : Cursor) (n : Nat) : c.Reaches (c.drop n) := ⟨_, c.reads_drop n⟩

theorem reaches_skipWhile (c : Cursor) (p : Char → Bool) : c.Reaches (c.skipWhile p) :=
  c.reaches_drop _

theorem reaches_toEnd (c : Cursor) : c.Reaches c.toEnd := ⟨c.rest, by simp [toEnd], rfl⟩

theorem In.reaches (hc : c.In t) (h : c.Reaches c') : c'.In t := by
  obtain ⟨r, hr⟩ := h
  exact hc.reads hr

theorem Reaches.pos_le (h : c.Reaches c') : c.pos ≤ c'.pos := by
  obtain ⟨r, hr⟩ := h
  rw [hr.pos]
  exact Nat.le_add_right _ _

theorem Reaches.stop_eq (h : c.Reaches c') : c'.stop = c.stop := by
  obtain ⟨r, hr⟩ := h
  simp only [stop, hr.pos, hr.rest, List.length_append]
  omega

theorem Reaches.pos_le_stop (h : c.Reaches c') : c'.pos ≤ c.stop := by
  rw [← h.stop_eq]
  exact Nat.le_add_right _ _

theorem Reaches.length_le (h : c.Reaches c') : c'.rest.length ≤ c.rest.length := by
  obtain ⟨r, hr⟩ := h
  rw [hr.rest, List.length_append]
  exact Nat.le_add_left _ _

/-- The character at which skipping ends is none of those that are skipped. -/
theorem head?_skipWhile (c : Cursor) (p : Char → Bool) {x : Char}
    (h : (c.skipWhile p).rest.head? = some x) : p x = false := by
  have hsplit := List.prefix_iff_eq_append.mp (List.takeWhile_prefix (l := c.rest) p)
  have hrest : (c.skipWhile p).rest = c.rest.dropWhile p :=
    List.append_cancel_left (hsplit.trans List.takeWhile_append_dropWhile.symm)
  rw [hrest] at h
  have := List.head?_dropWhile_not p c.rest
  rw [h] at this
  simpa using this

end Text.Cursor

/-! ### Occurrences -/

namespace Text

/-- The first occurrence of a text is one. -/
theorem prefix_of_indexOf? {pattern t : List Char} {n : Nat} (h : indexOf? pattern t = some n) :
    n ≤ t.length ∧ pattern <+: t.drop n := by
  induction t generalizing n with
  | nil =>
    rw [indexOf?] at h
    split at h
    · next hempty =>
      cases h
      rw [List.isEmpty_iff.mp hempty]
      exact ⟨Nat.le_refl _, List.nil_prefix⟩
    · cases h
  | cons c t ih =>
    rw [indexOf?] at h
    split at h
    · next hprefix =>
      cases h
      exact ⟨Nat.zero_le _, List.isPrefixOf_iff_prefix.mp hprefix⟩
    · obtain ⟨m, hm, rfl⟩ := Option.map_eq_some_iff.mp h
      obtain ⟨hle, hprefix⟩ := ih hm
      exact ⟨Nat.succ_le_succ hle, hprefix⟩

/-- Moving behind the first occurrence of a text. -/
theorem reads_of_indexOf? {pattern : List Char} {c : Cursor} {n : Nat}
    (h : indexOf? pattern c.rest = some n) :
    c.Reads (c.rest.take n ++ pattern) (c.drop (n + pattern.length)) := by
  obtain ⟨-, hprefix⟩ := prefix_of_indexOf? h
  have hread := c.reads_drop (n + pattern.length)
  rwa [List.take_add, ← List.prefix_iff_eq_take.mp hprefix] at hread

/-- A text between quotes: its two ends, behind the first quote and before the second one. -/
theorem Cursor.exists_quoted {c : Cursor} {quote : Char} {rest : List Char} {n : Nat}
    (hrest : c.rest = quote :: rest) (h : indexOf? [quote] rest = some n) :
    ∃ c₁ c₂, c.Reaches c₁ ∧ c₁.Reaches c₂ ∧ c₂.Reaches (c.drop (n + 2)) ∧
      c₁.pos = c.pos + 1 ∧ c₂.pos = c.pos + 1 + n := by
  obtain ⟨hle, -⟩ := prefix_of_indexOf? h
  refine ⟨c.drop 1, (c.drop 1).drop n, c.reaches_drop 1, reaches_drop _ n, ?_, ?_, ?_⟩
  · have hlast := ((c.drop 1).drop n).reaches_drop 1
    have hsum : ((c.drop 1).drop n).drop 1 = c.drop (n + 2) := by
      rw [drop_drop, drop_drop, Nat.add_comm 1 (n + 1)]
    rwa [hsum] at hlast
  · simp [drop, hrest]
  · simp [drop, hrest, hle]

end Text

end ViewLint
