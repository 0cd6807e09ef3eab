import ViewLint.Proofs.SourceMap.Lookup
import ViewLint.Proofs.SourceMap.Rendering

/-!
# Lines and columns by a table of lines

Where the lines of a text begin can be listed once.  The line of an offset is then found by halving
the list, and only the characters of that line are counted.  A place inside of a stretch of the text
can also be counted from the beginning of the stretch on: the line feeds in it count on from the
line of the stretch, and the column counts on from its column as long as there was none.  All of
this comes to what counting from the beginning of the text gives, also for offsets inside of a
character, which count as its beginning.

## Main definitions

* `Text.CharBoundary`, `Text.clamp` — offsets between characters, and the last one of them up to an
  offset.
* `lineTable`, `locate?` — a place that is looked up in the table of lines.
* `Position.advance?`, `Location.advance?` — a place that is counted inside of a stretch.

## Main results

* `Text.clamp_eq` — stepping back from an offset inside of a character.
* `Position.after_eq`, `Position.origin_after_eq` — a position by the last line feed.
* `lookUp?_eq`, `Position.advance?_eq` — both ways give what counting gives.
* `relative_place_is_absolute` — a place counted inside of a stretch is one of the whole text.
-/

namespace ViewLint

namespace Text

/-! ### Offsets between characters -/

/-- An offset of a text between two characters, or at one of its ends. -/
def CharBoundary (t : List Char) (n : Nat) : Prop := bytes (upTo n t) = n

instance (t : List Char) (n : Nat) : Decidable (CharBoundary t n) :=
  inferInstanceAs (Decidable (_ = _))

variable {t u : List Char} {n : Nat}

theorem charBoundary_iff : CharBoundary t n ↔ ∃ u, u <+: t ∧ bytes u = n := by
  constructor
  · exact fun h => ⟨_, prefix_upTo n t, h⟩
  · rintro ⟨u, hu, rfl⟩
    rw [CharBoundary, upTo_bytes_eq hu]

theorem charBoundary_zero (t : List Char) : CharBoundary t 0 := Nat.le_zero.mp (bytes_upTo_le 0 t)

/-- An offset inside of the first character. -/
theorem not_charBoundary_of_lt {c : Char} (hpos : 0 < n) (hlt : n < c.utf8Size) :
    ¬CharBoundary (c :: t) n := by
  rw [CharBoundary, upTo, if_neg (Nat.not_le.mpr hlt), bytes_nil]
  exact Nat.ne_of_lt hpos

/-- An offset behind the first character. -/
theorem charBoundary_cons_add (c : Char) (t : List Char) (n : Nat) :
    CharBoundary (c :: t) (c.utf8Size + n) ↔ CharBoundary t n := by
  rw [CharBoundary, upTo, if_pos (Nat.le_add_right _ _), Nat.add_sub_cancel_left, bytes_cons,
    Nat.add_left_cancel_iff, CharBoundary]

/-- Steps back from an offset until it is between characters. -/
def stepBack (t : List Char) : Nat → Nat
  | 0 => 0
  | n + 1 => if CharBoundary t (n + 1) then n + 1 else stepBack t n

/-- An offset, or the last one before it that is between characters of the text. -/
def clamp (t : List Char) (n : Nat) : Nat := stepBack t (min n (bytes t))

theorem upTo_succ_of_not_charBoundary (h : ¬CharBoundary t (n + 1)) :
    upTo (n + 1) t = upTo n t := by
  have hle : bytes (upTo (n + 1) t) ≤ n :=
    Nat.le_of_lt_succ (Nat.lt_of_le_of_ne (bytes_upTo_le (n + 1) t) h)
  have hlonger := upTo_maximal (prefix_upTo (n + 1) t) hle
  exact hlonger.eq_of_length_le (upTo_prefix_upTo t (Nat.le_succ n)).length_le

theorem stepBack_eq (t : List Char) (n : Nat) : stepBack t n = bytes (upTo n t) := by
  induction n with
  | zero => exact (charBoundary_zero t).symm
  | succ n ih =>
    rw [stepBack]
    split
    · next h => exact h.symm
    · next h => rw [ih, upTo_succ_of_not_charBoundary h]

theorem upTo_min_bytes (n : Nat) (t : List Char) : upTo (min n (bytes t)) t = upTo n t := by
  rcases Nat.le_total n (bytes t) with h | h
  · rw [Nat.min_eq_left h]
  · have hall : upTo n t = t :=
      (prefix_upTo n t).eq_of_length_le (upTo_maximal List.prefix_rfl h).length_le
    rw [Nat.min_eq_right h, upTo_bytes_eq List.prefix_rfl, hall]

/-- Stepping back comes to the end of the longest prefix that fits. -/
theorem clamp_eq (t : List Char) (n : Nat) : clamp t n = bytes (upTo n t) := by
  rw [clamp, stepBack_eq, upTo_min_bytes]

/-! ### The last line -/

/-- The characters behind the last line feed of a text. -/
def lastLine (t : List Char) : List Char := (t.reverse.takeWhile (· != '\n')).reverse

theorem lastLine_of_not_mem (h : '\n' ∉ t) : lastLine t = t := by
  rw [lastLine, List.takeWhile_eq_self_iff.mpr, List.reverse_reverse]
  intro c hc
  rw [List.mem_reverse] at hc
  exact bne_iff_ne.mpr (ne_of_mem_of_not_mem hc h)

theorem lastLine_append_cons (u : List Char) {v : List Char} (h : '\n' ∉ v) :
    lastLine (u ++ '\n' :: v) = v := by
  rw [lastLine, List.reverse_append, List.reverse_cons, List.append_assoc,
    List.takeWhile_append_of_pos]
  · simp
  · intro c hc
    rw [List.mem_reverse] at hc
    exact bne_iff_ne.mpr (ne_of_mem_of_not_mem hc h)

/-- A text with a line feed has a last one. -/
theorem exists_last_feed (h : '\n' ∈ t) : ∃ u v, t = u ++ '\n' :: v ∧ '\n' ∉ v := by
  obtain ⟨v, u, hreverse, hv⟩ := List.eq_append_cons_of_mem (List.mem_reverse.mpr h)
  refine ⟨u.reverse, v.reverse, ?_, by simpa using hv⟩
  rw [← List.reverse_reverse t, hreverse]
  simp

end Text

open Text

/-- The line feeds of a text begin lines, and the column counts on if there is none. -/
theorem Position.after_eq (p : Position) (t : List Char) :
    p.after t =
      if '\n' ∈ t then ⟨p.line + t.count '\n', (lastLine t).length⟩
      else ⟨p.line, p.column + t.length⟩ := by
  split
  · next h =>
    obtain ⟨u, v, rfl, hv⟩ := exists_last_feed h
    have hline := line_after p (u ++ '\n' :: v)
    rw [after_append, after_cons, next, if_pos rfl, after_of_not_mem _ hv] at hline ⊢
    rw [lastLine_append_cons u hv, ← hline, Nat.zero_add]
  · next h => exact after_of_not_mem p h

/-- From the beginning on, the line feeds count the lines, and the last line gives the column. -/
theorem Position.origin_after_eq (t : List Char) :
    origin.after t = ⟨1 + t.count '\n', (lastLine t).length⟩ := by
  rw [after_eq]
  split
  · rfl
  · next h =>
    rw [lastLine_of_not_mem h, List.count_eq_zero.mpr h]
    simp [origin]

/-! ### The table of lines -/

theorem lineStarts_append (offset : Nat) (t u : List Char) :
    lineStarts offset (t ++ u) = lineStarts offset t ++ lineStarts (offset + bytes t) u := by
  induction t generalizing offset with
  | nil => rfl
  | cons c t ih =>
    by_cases hc : c = '\n' <;> simp [lineStarts, hc, ih, Nat.add_assoc]

theorem length_lineStarts (offset : Nat) (t : List Char) :
    (lineStarts offset t).length = t.count '\n' := by
  induction t generalizing offset with
  | nil => rfl
  | cons c t ih => by_cases hc : c = '\n' <;> simp [lineStarts, hc, ih]

theorem lineStarts_of_not_mem {t : List Char} (h : '\n' ∉ t) (offset : Nat) :
    lineStarts offset t = [] := by
  rw [← List.length_eq_zero_iff, length_lineStarts, List.count_eq_zero]
  exact h

/-- The offsets at which the lines of a text begin. -/
def lineTable (t : List Char) : Array Nat := (0 :: lineStarts 0 t).toArray

/-- The position of an offset by the table of lines: the line is the one that begins at the offset,
or the last one before, and the column counts the characters since. -/
def lookUp? (t : List Char) (offset : Nat) : Option Position := do
  let stop := clamp t offset
  let behind := bisect (· < stop) (lineTable t)
  let line := if (lineTable t)[behind]? = some stop then behind else behind - 1
  let start ← (lineTable t)[line]?
  let inside ← between? t start stop
  return ⟨line + 1, inside.length⟩

/-- The lines up to the end of a text: the last one holds what is behind the last line feed, and all
others begin before it. -/
theorem exists_lineStarts_eq (t : List Char) :
    ∃ earlier start before, 0 :: lineStarts 0 t = earlier ++ [start] ∧ t = before ++ lastLine t ∧
      bytes before = start ∧ earlier.length = t.count '\n' ∧ ∀ n ∈ earlier, n < start := by
  by_cases h : '\n' ∈ t
  · obtain ⟨u, v, rfl, hv⟩ := exists_last_feed h
    refine ⟨0 :: lineStarts 0 u, bytes u + 1, u ++ ['\n'], ?_, ?_, ?_, ?_, ?_⟩
    · rw [lineStarts_append, lineStarts, if_pos rfl, lineStarts_of_not_mem hv, Nat.zero_add]
      rfl
    · rw [lastLine_append_cons u hv, List.append_assoc, List.singleton_append]
    · rw [bytes_append, bytes_lineFeed]
    · rw [List.length_cons, length_lineStarts, List.count_append, List.count_cons_self,
        List.count_eq_zero.mpr hv]
    · intro n hn
      rcases List.mem_cons.mp hn with rfl | hn
      · exact Nat.succ_pos _
      · obtain ⟨w, x, rfl, rfl⟩ := mem_lineStarts.mp hn
        rw [bytes_append, bytes_cons]
        have := Char.utf8Size_pos '\n'
        omega
  · refine ⟨[], 0, [], ?_, ?_, rfl, ?_, List.forall_mem_nil _⟩
    · rw [lineStarts_of_not_mem h, List.nil_append]
    · rw [lastLine_of_not_mem h, List.nil_append]
    · rw [List.length_nil, List.count_eq_zero.mpr h]

/-- The table of lines begins with the lines up to the end of a prefix, and the others begin behind
it. -/
theorem exists_lineTable_eq {p t : List Char} (hp : p <+: t) :
    ∃ later, (lineTable t).toList = 0 :: lineStarts 0 p ++ later ∧ ∀ n ∈ later, bytes p < n := by
  obtain ⟨r, rfl⟩ := hp
  refine ⟨lineStarts (bytes p) r, ?_, ?_⟩
  · rw [lineTable, lineStarts_append, Nat.zero_add, List.cons_append]
  · intro n hn
    obtain ⟨u, v, -, rfl⟩ := mem_lineStarts.mp hn
    omega

theorem pairwise_lineTable (t : List Char) : (lineTable t).toList.Pairwise (· < ·) := by
  refine List.pairwise_cons.mpr ⟨?_, pairwise_lineStarts 0 t⟩
  intro n hn
  obtain ⟨u, v, -, rfl⟩ := mem_lineStarts.mp hn
  exact Nat.succ_pos _

/-- Of ordered offsets, halving finds the last one up to a given one: the one at which it stops, if
that is the given one, or else the one before. -/
theorem bisect_of_append {table : Array Nat} {earlier later : List Nat} {start stop : Nat}
    (hordered : table.toList.Pairwise (· < ·)) (htable : table.toList = earlier ++ start :: later)
    (hearlier : ∀ n ∈ earlier, n < start) (hle : start ≤ stop) (hlater : ∀ n ∈ later, stop < n) :
    let behind := bisect (· < stop) table
    (if table[behind]? = some stop then behind else behind - 1) = earlier.length := by
  intro behind
  have hbehind : behind = ((earlier ++ start :: later).takeWhile (· < stop)).length := by
    rw [← htable]
    refine bisect_eq_length_takeWhile (hordered.imp ?_)
    intro m n hmn hn
    rw [decide_eq_true_eq] at hn ⊢
    omega
  have hfirst : ∀ n ∈ earlier, decide (n < stop) = true := fun n hn =>
    decide_eq_true (Nat.lt_of_lt_of_le (hearlier n hn) hle)
  rw [List.takeWhile_append_of_pos hfirst] at hbehind
  rcases Nat.lt_or_eq_of_le hle with hlt | rfl
  · -- halving goes behind the offset that is looked for
    have hnone : later.takeWhile (· < stop) = [] := by
      cases later with
      | nil => rfl
      | cons n later =>
        have hn := hlater n List.mem_cons_self
        exact List.takeWhile_cons_of_neg (by rw [decide_eq_true_eq]; omega)
    rw [List.takeWhile_cons_of_pos (by simpa using hlt), hnone, List.length_append,
      List.length_singleton] at hbehind
    have hget : table[behind]? ≠ some stop := by
      rw [← Array.getElem?_toList, htable, hbehind, List.append_cons earlier start later,
        List.getElem?_append_right (by simp)]
      intro hget
      exact Nat.lt_irrefl _ (hlater stop (List.mem_of_getElem? hget))
    rw [if_neg hget, hbehind, Nat.add_sub_cancel]
  · rw [List.takeWhile_cons_of_neg (by simp), List.append_nil] at hbehind
    have hget : table[behind]? = some start := by
      rw [← Array.getElem?_toList, htable, hbehind]
      simp
    rw [if_pos hget, hbehind]

/-- Looking up the table gives what counting gives. -/
theorem lookUp?_eq (t : List Char) (offset : Nat) :
    lookUp? t offset = some (Position.ofOffset t offset) := by
  obtain ⟨earlier, start, before, hlines, hbefore, hstart, hcount, hearlier⟩ :=
    exists_lineStarts_eq (upTo offset t)
  obtain ⟨later, htable, hlater⟩ := exists_lineTable_eq (prefix_upTo offset t)
  obtain ⟨rest, hrest⟩ := prefix_upTo offset t
  have hbytes : start + bytes (lastLine (upTo offset t)) = bytes (upTo offset t) := by
    rw [← hstart, ← bytes_append, ← hbefore]
  rw [hlines, List.append_assoc, List.singleton_append] at htable
  have hline :=
    bisect_of_append (pairwise_lineTable t) htable hearlier (hbytes ▸ Nat.le_add_right _ _)
    hlater
  have hget : (lineTable t)[earlier.length]? = some start := by
    rw [← Array.getElem?_toList, htable]
    simp
  have hinside : between? t start (bytes (upTo offset t)) = some (lastLine (upTo offset t)) :=
    between?_eq_some_iff.mpr
      ⟨before, rest, by rw [← List.append_assoc, ← hbefore, hrest], hstart, hbytes⟩
  have hposition : Position.ofOffset t offset =
      ⟨earlier.length + 1, (lastLine (upTo offset t)).length⟩ := by
    rw [Position.ofOffset, Position.origin_after_eq, hcount, Nat.add_comm]
  simp only [lookUp?, clamp_eq, hline, hget, hinside, hposition, Option.bind_eq_bind,
    Option.bind_some, Option.pure_def]

/-- A place by the table of lines. -/
def locate? (t : List Char) (start stop : Nat) : Option Location := do
  return ⟨← lookUp? t start, ← lookUp? t stop, start, stop⟩

theorem locate?_eq (t : List Char) (start stop : Nat) :
    locate? t start stop = some (.ofRange t start stop) := by
  simp [locate?, lookUp?_eq, Location.ofRange]

/-! ### Inside of a stretch -/

/-- The position of an offset of a text that begins at some position: the line feeds before the
offset are counted, and the characters behind the last of them. -/
def Position.advance? (p : Position) (t : List Char) (offset : Nat) : Option Position := do
  let before ← between? t 0 (clamp t offset)
  return if '\n' ∈ before then ⟨p.line + before.count '\n', (lastLine before).length⟩
    else ⟨p.line, p.column + before.length⟩

/-- The place of a stretch of a text that begins at a place. -/
def Location.advance? (l : Location) (t : List Char) (start stop : Nat) : Option Location := do
  return ⟨← l.first.advance? t start, ← l.first.advance? t stop, l.start + start, l.start + stop⟩

theorem Position.advance?_eq (p : Position) (t : List Char) (offset : Nat) :
    p.advance? t offset = some (p.after (upTo offset t)) := by
  obtain ⟨rest, hrest⟩ := prefix_upTo offset t
  have hbefore : between? t 0 (clamp t offset) = some (upTo offset t) :=
    between?_eq_some_iff.mpr ⟨[], rest, hrest.symm, rfl, by rw [clamp_eq, Nat.zero_add]⟩
  rw [advance?, hbefore, after_eq]
  rfl

theorem Location.advance?_eq (l : Location) (t : List Char) (start stop : Nat) :
    l.advance? t start stop = some (l.relative t start stop) := by
  simp [advance?, Position.advance?_eq, relative]

/-- The bytes of what stands before count first. -/
theorem upTo_bytes_add (u t : List Char) (n : Nat) :
    upTo (bytes u + n) (u ++ t) = u ++ upTo n t := by
  induction u with
  | nil => simp
  | cons c u ih =>
    have hrest : c.utf8Size + bytes u + n - c.utf8Size = bytes u + n := by omega
    rw [bytes_cons, List.cons_append, upTo, if_pos (by omega), hrest, ih, List.cons_append]

/-- What stands behind does not count as long as the bytes do not go there. -/
theorem upTo_append_of_le {u : List Char} {n : Nat} (h : n ≤ bytes u) (t : List Char) :
    upTo n (u ++ t) = upTo n u := by
  induction u generalizing n with
  | nil =>
    obtain rfl : n = 0 := Nat.le_zero.mp h
    cases t with
    | nil => rfl
    | cons c t =>
      have hsize := Char.utf8Size_pos c
      show (if c.utf8Size ≤ 0 then _ else []) = []
      rw [if_neg (Nat.not_le.mpr hsize)]
  | cons c u ih =>
    rw [bytes_cons] at h
    rw [List.cons_append, upTo, upTo]
    split
    · rw [ih (by omega)]
    · rfl

/-- **A place counted inside of a stretch is one of the whole text.**  Take a stretch of a text
between two offsets that are between characters, and two offsets up to its size, between characters
or not.  The place that is counted from the beginning of the stretch on has the bytes, lines and
columns of the same place in the text.  This is so for counting, and for the ways of the table: the
place of the stretch is looked up, and the one inside of it is counted by line feeds, or looked up
as well. -/
theorem relative_place_is_absolute {t u : List Char} {a b s e : Nat} (hu : between? t a b = some u)
    (hs : s ≤ b - a) (he : e ≤ b - a) :
    let l := Location.ofRange t a b
    l.relative u s e = .ofRange t (a + s) (a + e) ∧
    locate? t a b = some l ∧ l.advance? u s e = locate? t (a + s) (a + e) := by
  intro l
  obtain ⟨before, after, rfl, rfl, rfl⟩ := between?_eq_some_iff.mp hu
  rw [Nat.add_sub_cancel_left] at hs he
  have hstart : l.first = Position.origin.after before := by
    show Position.origin.after _ = _
    rw [upTo_bytes_eq (List.prefix_append _ _)]
  have hposition : ∀ n ≤ bytes u, l.first.after (upTo n u) =
      Position.ofOffset (before ++ (u ++ after)) (bytes before + n) := by
    intro n hn
    rw [hstart, Position.ofOffset, upTo_bytes_add, upTo_append_of_le hn, Position.after_append]
  have hrelative : l.relative u s e =
      .ofRange (before ++ (u ++ after)) (bytes before + s) (bytes before + e) := by
    rw [Location.relative, hposition s hs, hposition e he]
    rfl
  refine ⟨hrelative, locate?_eq _ _ _, ?_⟩
  rw [Location.advance?_eq, locate?_eq, hrelative]

/-- A stretch from the first line to the second one, with one offset behind the line feed and one
inside of a character. -/
theorem relative_place_is_absolute_accentedLines :
    let t := "a\u00e9b\u00e9\n\u00e9c".toList
    between? t 3 9 = some "b\u00e9\n\u00e9".toList ∧
    (Location.ofRange t 3 9).relative "b\u00e9\n\u00e9".toList 4 5 = .ofRange t 7 8 ∧
    (Location.ofRange t 3 9).relative "b\u00e9\n\u00e9".toList 4 5 = ⟨⟨2, 0⟩, ⟨2, 0⟩, 7, 8⟩ := by
  intro t
  have hu : between? t 3 9 = some "b\u00e9\n\u00e9".toList := by decide
  have hplace := (relative_place_is_absolute hu (by decide : 4 ≤ 9 - 3) (by decide : 5 ≤ 9 - 3)).1
  exact ⟨hu, hplace, hplace.trans (by decide)⟩

end ViewLint
