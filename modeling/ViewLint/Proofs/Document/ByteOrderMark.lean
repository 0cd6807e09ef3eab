import ViewLint.Proofs.Document.Names
import ViewLint.Proofs.Document.Places

/-!
# The byte order mark of a document

A view loses the byte order mark that it begins with before its document is made, and the tokens of
the document are read from a text that loses such a mark once more.  So the places of a document are
places of its text, except if a second mark opens the text.  Then all places are counted without it:
they are three bytes short, and on the first line also one column.  At such a place the text shows
the expression of a binding only by chance, if the expression repeats the character before it.

## Main definitions

* `Location.Repeats` — at a place a text has a character of three bytes, and behind it only more of
  them.

## Main results

* `exists_eq_append_singleton`, `after_eq_of_append_singleton` — places that a mark does not move.
* `Location.Shows.shows_cons_iff` — a place of a text, as a place of the text with a mark before it.
* `bindings_point_at_document_iff` — when bindings point at their own text in their document.
-/

namespace ViewLint

open Text

/-! ### Positions -/

namespace Position

variable {p : Position} {t u : List Char}

/-- What leads to a position on the same line has no line feed. -/
theorem not_mem_of_line_eq (h : (p.after t).line = p.line) : '\n' ∉ t := by
  rw [line_after] at h
  exact List.count_eq_zero.mp (by omega)

/-- If a text begins one column later and ends at the position behind another one, then all is on
one line, and the other text is one character. -/
theorem eq_singleton_of_after (hu : u ≠ [])
    (h : (origin.next '\ufeff').after t = (origin.after t).after u) :
    '\n' ∉ t ∧ ∃ c, u = [c] := by
  have hline : ((origin.after t).after u).line = (origin.after t).line := by
    rw [← h, line_after, line_after]
    rfl
  rw [after_of_not_mem _ (not_mem_of_line_eq hline)] at h
  by_cases ht : '\n' ∈ t
  · -- both texts end in the same column, and the other one has no characters
    have hsame : (origin.next '\ufeff').after t = origin.after t := after_eq_of_mem rfl ht
    have hcolumn := congrArg column (hsame.symm.trans h)
    dsimp only at hcolumn
    exact absurd (List.length_eq_zero_iff.mp (by omega)) hu
  · rw [after_of_not_mem _ ht, after_of_not_mem _ ht] at h
    have hcolumn : 0 + 1 + t.length = 0 + t.length + u.length := congrArg column h
    exact ⟨ht, List.length_eq_one_iff.mp (by omega)⟩

end Position

/-! ### Places behind a mark -/

/-- At a place a text has a character of three bytes, on its first line, and behind it a text that
is only that character again and again. -/
def Location.Repeats (t : List Char) (l : Location) (u : List Char) : Prop :=
  ∃ front c back, t = front ++ c :: (u ++ back) ∧ bytes front = l.start ∧ '\n' ∉ front ∧
    c.utf8Size = 3 ∧ ∀ x ∈ u, x = c

section

variable {t u front before : List Char} {c : Char} {l : Location}

/-- The text at a place, with what stands around it. -/
theorem Location.shows_iff :
    l.Shows t u ↔ ∃ before after, t = before ++ (u ++ after) ∧ bytes before = l.start ∧
      l.start + bytes u = l.stop ∧ l.first = Position.origin.after before ∧
      l.last = (Position.origin.after before).after u := by
  have hrange : ∀ before after, t = before ++ (u ++ after) →
      Location.ofRange t (bytes before) (bytes before + bytes u) =
        ⟨Position.origin.after before, (Position.origin.after before).after u,
          bytes before, bytes before + bytes u⟩ := by
    rintro before after rfl
    rw [Location.ofRange, Position.ofOffset, Position.ofOffset, ← Position.after_append,
      ← bytes_append, upTo_bytes_eq (List.prefix_append _ _), ← List.append_assoc,
      upTo_bytes_eq (List.prefix_append _ _)]
  constructor
  · rintro ⟨htext, hcounted⟩
    obtain ⟨before, after, ht, hstart, hstop⟩ := between?_eq_some_iff.mp htext
    rw [← hstop, ← hstart, hrange before after ht] at hcounted
    exact ⟨before, after, ht, hstart, hstop, congrArg first hcounted, congrArg last hcounted⟩
  · rintro ⟨before, after, ht, hstart, hstop, hfirst, hlast⟩
    refine ⟨between?_eq_some_iff.mpr ⟨before, after, ht, hstart, hstop⟩, ?_⟩
    rw [← hstop, ← hstart, hrange before after ht, ← hlast, ← hfirst, hstart, hstop]

theorem bytes_mark_cons (t : List Char) : bytes ('\ufeff' :: t) = bytes t + 3 := by
  rw [bytes_cons, Nat.add_comm]
  rfl

/-- If a mark before a text changes neither the bytes before a place nor its position, then a
character as long as the mark stands there. -/
theorem exists_eq_append_singleton (hbefore : before <+: '\ufeff' :: front)
    (hbytes : bytes before = bytes front)
    (hposition : Position.origin.after before = Position.origin.after front) :
    '\n' ∉ before ∧ ∃ c, c.utf8Size = 3 ∧ '\ufeff' :: front = before ++ [c] := by
  obtain ⟨gap, hgap⟩ := hbefore
  have hsize : bytes gap = 3 := by
    have hsum := congrArg bytes hgap
    rw [bytes_append, bytes_mark_cons] at hsum
    omega
  have hmoved : (Position.origin.next '\ufeff').after front =
      (Position.origin.after front).after gap := by
    rw [← hposition, ← Position.after_append, hgap, Position.after_cons]
  have hne : gap ≠ [] := by
    rintro rfl
    cases hsize
  obtain ⟨hline, c, rfl⟩ := Position.eq_singleton_of_after hne hmoved
  refine ⟨?_, c, by rwa [bytes_cons, bytes_nil] at hsize, hgap.symm⟩
  intro hmem
  have hmem : '\n' ∈ '\ufeff' :: front := hgap ▸ List.mem_append_left _ hmem
  exact hline ((List.mem_cons.mp hmem).resolve_left (by decide))

/-- On one line, leaving out the mark at the beginning or the last character leads to the same
column. -/
theorem after_eq_of_append_singleton (h : before ++ [c] = '\ufeff' :: front) (hline : '\n' ∉ before)
    (hc : '\n' ≠ c) : Position.origin.after before = Position.origin.after front := by
  have hfront : '\n' ∉ front := by
    intro hmem
    have hmem : '\n' ∈ before ++ [c] := h ▸ List.mem_cons_of_mem _ hmem
    rcases List.mem_append.mp hmem with hmem | hmem
    · exact hline hmem
    · exact hc (List.mem_singleton.mp hmem)
  have hcount := congrArg List.length h
  rw [List.length_append, List.length_singleton, List.length_cons] at hcount
  rw [Position.after_of_not_mem _ hline, Position.after_of_not_mem _ hfront, Nat.succ.inj hcount]

/-- A text that stays at the beginning when a character is put before it only has that character. -/
theorem eq_of_append_eq_cons {after back : List Char} (h : u ++ after = c :: (u ++ back)) :
    ∀ x ∈ u, x = c := by
  induction u with
  | nil => exact fun _ hx => absurd hx List.not_mem_nil
  | cons y u ih =>
    obtain ⟨hy, hrest⟩ := List.cons.inj h
    exact List.forall_mem_cons.mpr ⟨hy, ih (hy ▸ hrest)⟩

theorem append_cons_of_forall_eq (h : ∀ x ∈ u, x = c) (back : List Char) :
    u ++ c :: back = c :: (u ++ back) := by
  induction u with
  | nil => rfl
  | cons y u ih =>
    obtain ⟨rfl, hu⟩ := List.forall_mem_cons.mp h
    rw [List.cons_append, ih hu, List.cons_append]

/-- A place that shows a text does so behind a mark as well, without having been moved, only if the
text repeats the character before it. -/
theorem Location.Shows.shows_cons_iff (h : l.Shows t u) :
    l.Shows ('\ufeff' :: t) u ↔ l.Repeats ('\ufeff' :: t) u := by
  obtain ⟨front, back, rfl, hfront, hstop, hfirst, hlast⟩ := Location.shows_iff.mp h
  have hmark : ('\ufeff' :: front) <+: '\ufeff' :: (front ++ (u ++ back)) :=
    List.prefix_append ('\ufeff' :: front) (u ++ back)
  have hbytes : bytes ('\ufeff' :: front) = l.start + 3 := by rw [bytes_mark_cons, hfront]
  constructor
  · intro hshows
    obtain ⟨before, after, ht, hbefore, -, hfirst', -⟩ := Location.shows_iff.mp hshows
    have hprefix : before <+: '\ufeff' :: front :=
      prefix_of_bytes_le (ht ▸ List.prefix_append _ _) hmark (by omega)
    obtain ⟨hline, c, hc, hsame⟩ := exists_eq_append_singleton hprefix (hbefore.trans hfront.symm)
      (hfirst'.symm.trans hfirst)
    have hwhole : '\ufeff' :: (front ++ (u ++ back)) = before ++ c :: (u ++ back) := by
      rw [← List.cons_append, hsame, List.append_assoc, List.singleton_append]
    refine ⟨before, c, back, hwhole, hbefore, hline, hc, ?_⟩
    exact eq_of_append_eq_cons (List.append_cancel_left (ht.symm.trans hwhole))
  · rintro ⟨before, c, rest, ht, hbefore, hline, hc, hu⟩
    -- the character ends where the text begins
    have hsame : before ++ [c] = '\ufeff' :: front := by
      have hlong : before ++ [c] <+: '\ufeff' :: (front ++ (u ++ back)) := by
        rw [ht]
        exact ⟨u ++ rest, by rw [List.append_assoc, List.singleton_append]⟩
      have hlength : bytes (before ++ [c]) = bytes ('\ufeff' :: front) := by
        rw [bytes_append, bytes_cons, bytes_nil, hbytes, hbefore, hc]
      rw [← upTo_bytes_eq hlong, hlength, upTo_bytes_eq hmark]
    have hfeed : '\n' ≠ c := by
      rintro rfl
      cases hc
    have hposition := after_eq_of_append_singleton hsame hline hfeed
    refine Location.shows_iff.mpr ⟨before, c :: rest, ?_, hbefore, hstop, ?_, ?_⟩
    · rw [ht, append_cons_of_forall_eq hu]
    · rw [hfirst, hposition]
    · rw [hlast, hposition]

end

/-! ### Documents -/

/-- **When bindings point at their own text in their document.**  The text of a document is that of
the view without the mark that it begins with.  The expression of every binding is the text at its
place, with the lines and columns of that place, if one more mark is left out.  In the text of the
document itself it is so just if there is no more mark, or by chance: the place has a character of
three bytes, on the first line, that the expression repeats. -/
theorem bindings_point_at_document_iff [ScriptParser] {settings : Settings} {view : View}
    {d : Document} (hd : (parseView settings view).document = some d) :
    d.text.toList = Markup.stripMark view.text.toList ∧
    ∀ b ∈ d.bindings,
      b.expression.location.Shows (Markup.stripMark d.text.toList) b.expression.text.toList ∧
      (b.expression.location.Shows d.text.toList b.expression.text.toList ↔
        d.text.toList.head? ≠ some '\ufeff' ∨
          b.expression.location.Repeats d.text.toList b.expression.text.toList) := by
  obtain ⟨tokenized, ht, hbuild⟩ := exists_of_parseView hd
  have htext : d.text.toList = Markup.stripMark view.text.toList := by
    rw [document_eq_machine hbuild]
    exact String.toList_ofList
  refine ⟨htext, ?_⟩
  intro b hb
  obtain ⟨k, hk, rfl⟩ := Array.getElem_of_mem hb
  obtain ⟨i, j, hstands⟩ := expression_stands_of_build ht hbuild (Array.getElem?_eq_getElem hk)
  have hshows := hstands.shows
  rw [← htext] at hshows
  refine ⟨hshows, ?_⟩
  by_cases hmark : d.text.toList.head? = some '\ufeff'
  · obtain ⟨rest, hrest⟩ := List.head?_eq_some_iff.mp hmark
    rw [hrest] at hshows ⊢
    have hchance := Location.Shows.shows_cons_iff (t := rest) hshows
    rw [hchance, List.head?_cons]
    exact (or_iff_right (not_not.mpr rfl)).symm
  · rw [Markup.stripMark_eq_self hmark] at hshows
    exact iff_of_true hshows (.inl hmark)

/-- A view that one mark opens, with characters of two and three bytes before its bindings, which
stand on two lines. -/
def markedView : View :=
  ⟨"view.html", "\ufeff<p title='\u00e9\u20ac' data-bind='text: a'>\n" ++
    "<br data-bind='html: \u00e9'></p>"⟩

theorem bindings_point_at_document_iff_markedView :
    ∃ d, (parseView .default markedView).document = some d ∧
      d.text.utf8ByteSize + 3 = markedView.text.utf8ByteSize ∧
      d.bindings.toList.map (fun b => (b.expression.text, b.expression.location.start,
        b.expression.location.first)) = [("a", 34, ⟨1, 31⟩), ("\u00e9", 59, ⟨2, 21⟩)] ∧
      ∀ b ∈ d.bindings, b.expression.location.Shows d.text.toList b.expression.text.toList := by
  have hview : ((parseView .default markedView).document.map fun d =>
      (d.text.utf8ByteSize + 3, d.text.toList.head?, d.bindings.toList.map fun b =>
        (b.expression.text, b.expression.location.start, b.expression.location.first))) =
      some (markedView.text.utf8ByteSize, some '<',
        [("a", 34, ⟨1, 31⟩), ("\u00e9", 59, ⟨2, 21⟩)]) := by
    decide +kernel
  obtain ⟨d, hd, hfound⟩ := Option.map_eq_some_iff.mp hview
  simp only [Prod.mk.injEq] at hfound
  obtain ⟨hsize, hhead, hbindings⟩ := hfound
  refine ⟨d, hd, hsize, hbindings, ?_⟩
  intro b hb
  obtain ⟨-, hplaces⟩ := bindings_point_at_document_iff hd
  exact (hplaces b hb).2.mpr (.inl (by rw [hhead]; decide))

/-- A view that two marks open. -/
def doublyMarkedView : View := ⟨"view.html", "\ufeff\ufeff<br data-bind='text: a'>"⟩

/-- One of the marks stays in the document.  At the place of the expression the document has a
letter of the handler, and it has that place in another column. -/
theorem bindings_miss_document :
    ∃ d b, (parseView .default doublyMarkedView).document = some d ∧ b ∈ d.bindings ∧
      b.expression.text = "a" ∧ b.expression.location.first = ⟨1, 21⟩ ∧
      between? d.text.toList b.expression.location.start b.expression.location.stop = some ['t'] ∧
      Position.ofOffset d.text.toList b.expression.location.start = ⟨1, 19⟩ := by
  have hview : ((parseView .default doublyMarkedView).document.bind fun d =>
      d.bindings[0]?.map fun b => (b.expression.text, b.expression.location.first,
        between? d.text.toList b.expression.location.start b.expression.location.stop,
        Position.ofOffset d.text.toList b.expression.location.start)) =
      some ("a", ⟨1, 21⟩, some ['t'], ⟨1, 19⟩) := by
    decide +kernel
  obtain ⟨d, hd, hfound⟩ := Option.bind_eq_some_iff.mp hview
  obtain ⟨b, hb, hfound⟩ := Option.map_eq_some_iff.mp hfound
  simp only [Prod.mk.injEq] at hfound
  obtain ⟨htext, hfirst, hshown, hcounted⟩ := hfound
  exact ⟨d, b, hd, Array.mem_of_getElem? hb, htext, hfirst, hshown, hcounted⟩

end ViewLint
