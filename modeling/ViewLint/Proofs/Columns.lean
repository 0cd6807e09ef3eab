import Mathlib.Data.Prod.Lex
import Mathlib.Order.Bounds.Defs
import ViewLint.Proofs.Encoding

/-!
# Lines and columns by bytes

A table of lines can be made from the bytes of a text alone: a line begins behind each byte that is
a line feed.  An offset is then looked up by bytes only.  It is moved back to the end of a
character, its line is searched in the table, and just the characters between the beginning of the
line and the offset are counted.  This gives the line feeds and the last line of the characters
before the offset.  Each character moves on to a later line, or to a later column of the same line,
so that positions are in the order of the offsets.

## Main definitions

* `lineTableOfBytes`, `lookUpBytes?` — the table of lines of some bytes, and a position by it.
* `Position.key` — a position as a member of an order, first by lines and then by columns.

## Main results

* `lineTableOfBytes_encode` — the lines by bytes are the lines by characters.
* `Text.isGreatest_bytes_upTo` — the longest prefix up to an offset ends at the last offset between
  characters.
* `Position.key_lt_after`, `Position.strictMonoOn_key_ofOffset` — reading on leads to a later
  position.
* `positions_count_and_order` — what a position says of the text before it, and the order of
  positions.
-/

namespace ViewLint

open Text

/-! ### The table of lines of some bytes -/

/-- The offset behind a byte with its offset, if it is a line feed. -/
def behindFeed? (b : UInt8 × Nat) : Option Nat :=
  if b.1 = '\n'.toUInt8 then some (b.2 + 1) else none

/-- The offsets at which lines begin, found by looking at bytes. -/
def lineTableOfBytes (bs : List UInt8) : Array Nat := (0 :: bs.zipIdx.filterMap behindFeed?).toArray

theorem ascii_lineFeed : Ascii '\n' := by decide

/-- No byte of another character is a line feed. -/
theorem filterMap_behindFeed?_of_ne {x : Char} (hx : x ≠ '\n') (offset : Nat) :
    ((String.utf8EncodeChar x).zipIdx offset).filterMap behindFeed? = [] := by
  rw [List.filterMap_eq_nil_iff]
  intro b hb
  have hbyte := isByteOf_eq (List.forall_mem_singleton.mpr ascii_lineFeed)
    (List.fst_mem_of_mem_zipIdx hb)
  have hne : '\n'.toUInt8 ≠ b.1 := by simpa [isByteOf, hx] using hbyte
  rw [behindFeed?, if_neg hne.symm]

/-- The lines that begin behind the bytes of a text begin behind its line feeds. -/
theorem filterMap_behindFeed?_encode (offset : Nat) (t : List Char) :
    ((encode t).zipIdx offset).filterMap behindFeed? = lineStarts offset t := by
  induction t generalizing offset with
  | nil => rfl
  | cons x t ih =>
    rw [encode_cons, List.zipIdx_append, List.filterMap_append, String.length_utf8EncodeChar, ih,
      lineStarts]
    split
    · next hx =>
      subst hx
      rw [ascii_lineFeed.utf8EncodeChar_eq, ascii_lineFeed.utf8Size_eq]
      rfl
    · next hx => rw [filterMap_behindFeed?_of_ne hx, List.nil_append]

theorem lineTableOfBytes_encode (t : List Char) : lineTableOfBytes (encode t) = lineTable t := by
  rw [lineTableOfBytes, filterMap_behindFeed?_encode, lineTable]

/-- The position of an offset by bytes: the line is the one that begins at the last end of a
character up to the offset, or the last one before, and the column counts the characters since. -/
def lookUpBytes? (t : List Char) (offset : Nat) : Option Position := do
  let stop := clampBytes (encode t) offset
  let table := lineTableOfBytes (encode t)
  let behind := bisect (· < stop) table
  let line := if table[behind]? = some stop then behind else behind - 1
  let start ← table[line]?
  let inside ← between? t start stop
  return ⟨line + 1, inside.length⟩

/-- Looking up bytes gives what counting gives. -/
theorem lookUpBytes?_eq (t : List Char) (offset : Nat) :
    lookUpBytes? t offset = some (Position.ofOffset t offset) := by
  rw [← lookUp?_eq, lookUpBytes?, clampBytes_encode, lineTableOfBytes_encode, lookUp?]

/-- The longest prefix up to an offset ends at the last offset between characters. -/
theorem Text.isGreatest_bytes_upTo (t : List Char) (offset : Nat) :
    IsGreatest {n | CharBoundary t n ∧ n ≤ offset} (bytes (upTo offset t)) := by
  constructor
  · exact ⟨charBoundary_iff.mpr ⟨_, prefix_upTo offset t, rfl⟩, bytes_upTo_le offset t⟩
  · rintro n ⟨hn, hle⟩
    obtain ⟨u, hu, rfl⟩ := charBoundary_iff.mp hn
    exact bytes_mono (upTo_maximal hu hle)

/-! ### The order of positions -/

namespace Position

/-- A position in the order of lines, and of columns in the same line. -/
def key (p : Position) : ℕ ×ₗ ℕ := toLex (p.line, p.column)

theorem key_lt_next (p : Position) (c : Char) : p.key < (p.next c).key := by
  rw [key, key, Prod.Lex.toLex_lt_toLex, next]
  split
  · exact .inl (Nat.lt_succ_self p.line)
  · exact .inr ⟨rfl, Nat.lt_succ_self p.column⟩

theorem key_le_after (p : Position) (t : List Char) : p.key ≤ (p.after t).key := by
  induction t generalizing p with
  | nil => exact le_rfl
  | cons c t ih => exact (p.key_lt_next c).le.trans (ih (p.next c))

/-- Reading on leads to a later position. -/
theorem key_lt_after (p : Position) {t : List Char} (h : t ≠ []) : p.key < (p.after t).key := by
  cases t with
  | nil => exact absurd rfl h
  | cons c t => exact (p.key_lt_next c).trans_le ((p.next c).key_le_after t)

/-- Of two offsets between characters, the later one has the later position. -/
theorem strictMonoOn_key_ofOffset (t : List Char) :
    StrictMonoOn (fun n => (ofOffset t n).key) {n | CharBoundary t n} := by
  intro m (hm : bytes (upTo m t) = m) n (hn : bytes (upTo n t) = n) hlt
  obtain ⟨r, hr⟩ := upTo_prefix_upTo t hlt.le
  have hne : r ≠ [] := by
    rintro rfl
    have hbytes := congrArg bytes hr
    rw [List.append_nil, hm, hn] at hbytes
    exact hlt.ne hbytes
  show (origin.after (upTo m t)).key < (origin.after (upTo n t)).key
  rw [← hr, after_append]
  exact key_lt_after _ hne

end Position

/-- **A position counts the text before it, and positions are in the order of the text.**  Take an
offset of a text, inside of a character or behind the end if one likes, and the longest prefix that
ends between characters at or before it.  Looking up the offset always gives a position: its line is
one more than the line feeds of the prefix, and its column is the number of characters behind the
last one.  This is so for the table of lines made from bytes, for the index of the text, and for
counting.  Of two offsets between characters, the later one has a later line, or the same line and a
later column, so that no two of them have the same position. -/
theorem positions_count_and_order (t : List Char) :
    (∀ offset, ∃ p, p <+: t ∧ IsGreatest {n | isBoundary (encode t) n ∧ n ≤ offset} (bytes p) ∧
      lookUpBytes? t offset = some (.ofOffset t offset) ∧
      (TextIndex.of t).positionAt offset = .ofOffset t offset ∧
      Position.ofOffset t offset = ⟨1 + p.count '\n', (lastLine p).length⟩) ∧
    StrictMonoOn (fun n => (Position.ofOffset t n).key) {n | isBoundary (encode t) n} ∧
    Set.InjOn (Position.ofOffset t) {n | isBoundary (encode t) n} := by
  simp only [isBoundary_encode_iff]
  refine ⟨fun offset => ⟨upTo offset t, prefix_upTo offset t, isGreatest_bytes_upTo t offset,
    lookUpBytes?_eq t offset, TextIndex.positionAt_eq _ offset, Position.origin_after_eq _⟩,
    Position.strictMonoOn_key_ofOffset t, ?_⟩
  intro m hm n hn hmn
  exact (Position.strictMonoOn_key_ofOffset t).injOn hm hn (congrArg Position.key hmn)

/-- An offset inside of a character, and two offsets around a line feed, of which the later one has
the smaller column. -/
theorem positions_count_and_order_accentedLines :
    let t := "a\u00e9\n\u00e9".toList
    lookUpBytes? t 2 = some ⟨1, 1⟩ ∧ isBoundary (encode t) 3 ∧ isBoundary (encode t) 4 ∧
    Position.ofOffset t 3 = ⟨1, 2⟩ ∧ Position.ofOffset t 4 = ⟨2, 0⟩ ∧
    (Position.ofOffset t 3).key < (Position.ofOffset t 4).key := by
  intro t
  obtain ⟨hcount, horder, -⟩ := positions_count_and_order t
  obtain ⟨p, -, -, hlookUp, -⟩ := hcount 2
  have hthree : isBoundary (encode t) 3 := by decide
  have hfour : isBoundary (encode t) 4 := by decide
  exact ⟨hlookUp.trans (by decide), hthree, hfour, by decide, by decide,
    horder hthree hfour (by decide)⟩

end ViewLint
