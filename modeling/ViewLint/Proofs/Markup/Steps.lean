import ViewLint.Markup.Tokenize
import ViewLint.Proofs.Markup.Directives

/-!
# What a construct can be

A view is read construct by construct.  A construct is text up to the next bracket, a comment,
something that is passed over, a tag, or a bracket that opens nothing.  A comment in turn is a tag
of a virtual element, a directive, or nothing of the kind.  What is proved of constructs is proved
case by case, and the cases are told here once.

## Main definitions

* `Markup.commentBody` — the body of a comment.
* `Markup.CommentMakes` — what a comment can make.
* `Markup.Steps` — what a construct can be.

## Main results

* `Markup.exists_of_startTag`, `Markup.exists_of_endTag` — the parts of a tag.
* `Markup.makes_of_comment` — a comment makes nothing else.
* `Markup.steps_of_step` — a construct is nothing else.
* `Markup.scan_of_tokenize`, `Markup.exists_mem_scan` — where the tokens of a view come from.
-/

namespace ViewLint.Markup

open Text

variable {s : Source} {c c' : Cursor}

theorem exists_of_run' {α : Type} {f : Reading α} {x : α} (h : f.run' c = .ok x) :
    ∃ c', f c = .ok (x, c') := by
  obtain ⟨⟨y, c'⟩, hread, rfl⟩ := Except.map_eq_ok.mp h
  exact ⟨c', hread⟩

/-! ### Tags -/

/-- A start tag has a name and attributes, and the text behind it may be raw. -/
theorem exists_of_startTag {x : Token} (h : startTag s c = .ok (x, c')) :
    ∃ name type ps after, attributes s (c.rest.length + 1) ((c.drop 1).drop name.length) =
        .ok (type, ps, after) ∧
      x = .element
        { tag := s.tag name, type := type, location := s.location c.pos after.pos, bindings := ps,
          isVirtual := false } ∧
      c' = if s.isRaw (s.tag name) type then skipRaw (s.tag name) after else after := by
  unfold startTag at h
  dsimp only at h
  split at h
  · cases h
  · next name _ =>
    obtain ⟨⟨type, ps, after⟩, hattributes, h⟩ := Except.bind_eq_ok.mp h
    cases h
    exact ⟨name, type, ps, after, hattributes, rfl, rfl⟩

/-- An end tag has a name, and ends with the bracket behind it. -/
theorem exists_of_endTag {x : Token} (h : endTag s c = .ok (x, c')) :
    ∃ name, tagName? (c.drop 2).rest = some name ∧
      (((c.drop 2).drop name.length).skipWhile isMarkupBlank).rest.head? = some '>' ∧
      c' = (((c.drop 2).drop name.length).skipWhile isMarkupBlank).drop 1 ∧
      x = .element
        { tag := s.tag name, type := .stop, location := s.location c.pos c'.pos, bindings := [],
          isVirtual := false } := by
  unfold endTag at h
  dsimp only at h
  split at h
  · cases h
  · next name hname =>
    split at h
    · next hlast =>
      cases h
      exact ⟨name, hname, hlast, rfl, rfl⟩
    · cases h

/-! ### Comments -/

theorem prefix_trimEnd (t : List Char) : trimEnd t <+: t := by
  rw [trimEnd, ← List.reverse_suffix, List.reverse_reverse]
  exact List.dropWhile_suffix _

/-- The body of a comment, of which `n` characters are ahead: these without the blanks around
them. -/
def commentBody (c : Cursor) (n : Nat) : Cursor :=
  let lead := (⟨c.pos, c.rest.take n⟩ : Cursor).skipWhile isBlank
  ⟨lead.pos, trimEnd lead.rest⟩

theorem in_commentBody {t : List Char} (hc : c.In t) (n : Nat) : (commentBody c n).In t :=
  ((hc.shorten (List.take_prefix n _)).reaches (Cursor.reaches_skipWhile _ _)).shorten
    (prefix_trimEnd _)

/-- The body of a comment stands in the comment. -/
theorem commentBody_bounds (c : Cursor) (n : Nat) :
    c.pos ≤ (commentBody c n).pos ∧ (commentBody c n).stop ≤ c.pos + (c.rest.take n).length := by
  have hlead := (⟨c.pos, c.rest.take n⟩ : Cursor).reaches_skipWhile isBlank
  refine ⟨hlead.pos_le, Nat.le_trans ?_ (Nat.le_of_eq hlead.stop_eq)⟩
  exact Nat.add_le_add_left (prefix_trimEnd _).length_le _

/-- The cursor behind the first word of a comment. -/
def behindWord (body : Cursor) : Cursor := body.drop (body.rest.takeWhile (!isBlank ·)).length

/-- What a comment can make.  `whole` is the place of the comment, and the cursor stands at its
body.  A directive has the place of the body, in which there is a word at least. -/
inductive CommentMakes (s : Source) (whole : Location) (body : Cursor) : Option Token → Prop
  | nothing : CommentMakes s whole body none
  | stop : CommentMakes s whole body (some (.element
      { tag := virtualTag, type := .stop, location := whole, bindings := [], isVirtual := true }))
  | start {c : Cursor} : c = (behindWord body).skipWhile isBlank →
      CommentMakes s whole body (some (.element
        { tag := virtualTag, type := .start, location := whole,
          bindings := [⟨s.location c.pos c.stop, .ofList c.rest⟩], isVirtual := true }))
  | imports {i : Import} {c' : Cursor} : body.rest ≠ [] →
      importDirective s (s.location body.pos body.stop) (behindWord body) = .ok (.imports i, c') →
      CommentMakes s whole body (some (.directive (.imports i)))
  | viewmodel {r : TypeReference} {c' : Cursor} : body.rest ≠ [] →
      typeReference s (behindWord body) = .ok (r, c') →
      CommentMakes s whole body (some (.directive (.viewmodel (s.location body.pos body.stop) r)))
  | context {r : TypeReference} {c' : Cursor} : body.rest ≠ [] →
      typeReference s (behindWord body) = .ok (r, c') →
      CommentMakes s whole body (some (.directive (.context (s.location body.pos body.stop) r)))
  | lint {enable : Bool} : body.rest ≠ [] →
      CommentMakes s whole body (some (.directive
        (.lint (s.location body.pos body.stop) (lintKeys (behindWord body).rest) enable)))

theorem eq_of_virtualElement {whole : Location} {x : Token}
    (h : virtualElement s whole c = .ok (x, c')) :
    x = .element
      { tag := virtualTag, type := .start, location := whole,
        bindings := [⟨s.location (c.skipWhile isBlank).pos (c.skipWhile isBlank).stop,
          .ofList (c.skipWhile isBlank).rest⟩], isVirtual := true } := by
  rw [virtualElement, skipBlanks_bind, get_bind] at h
  split at h
  · exact absurd h (stopDirective_ne_ok _ _ _)
  · cases h
    rfl

theorem exists_of_importDirective {l : Location} {d : Directive}
    (h : importDirective s l c = .ok (d, c')) : ∃ i, d = .imports i := by
  obtain ⟨symbols, c₁, -, h⟩ := reading_bind_eq_ok h
  obtain ⟨u, c₂, -, h⟩ := reading_bind_eq_ok h
  obtain ⟨path, c₃, -, h⟩ := reading_bind_eq_ok h
  obtain ⟨u, c₄, -, h⟩ := reading_bind_eq_ok h
  cases h
  exact ⟨_, rfl⟩

/-- A comment makes nothing else. -/
theorem makes_of_comment {whole : Location} {body : Cursor} {x : Option Token}
    (h : comment s whole body = .ok x) : CommentMakes s whole body x := by
  unfold comment at h
  split at h
  · split at h
    · cases h
      exact .stop
    · cases h
      exact .nothing
  · -- a body without characters has no word
    have hne : ∀ {word : String}, word ≠ "" →
        String.ofList (body.rest.takeWhile (!isBlank ·)) = word → body.rest ≠ [] := by
      intro word hword hfirst hnil
      rw [hnil] at hfirst
      exact hword hfirst.symm
    dsimp only at h
    split at h
    · obtain ⟨y, hrun, h⟩ := Except.bind_eq_ok.mp h
      obtain ⟨c', hread⟩ := exists_of_run' hrun
      obtain rfl := eq_of_virtualElement hread
      cases h
      exact .start rfl
    · next hword =>
      obtain ⟨d, hrun, h⟩ := Except.bind_eq_ok.mp h
      obtain ⟨c', hread⟩ := exists_of_run' hrun
      obtain ⟨i, rfl⟩ := exists_of_importDirective hread
      cases h
      exact .imports (hne (by decide) hword) hread
    · next hword =>
      obtain ⟨r, hrun, h⟩ := Except.bind_eq_ok.mp h
      obtain ⟨c', hread⟩ := exists_of_run' hrun
      cases h
      exact .viewmodel (hne (by decide) hword) hread
    · next hword =>
      obtain ⟨r, hrun, h⟩ := Except.bind_eq_ok.mp h
      obtain ⟨c', hread⟩ := exists_of_run' hrun
      cases h
      exact .context (hne (by decide) hword) hread
    · next hword =>
      cases h
      exact .lint (hne (by decide) hword)
    · next hword =>
      cases h
      exact .lint (hne (by decide) hword)
    · cases h
      exact .nothing

/-! ### Constructs -/

/-- What a construct can be, with the token that it makes and the cursor behind it. -/
inductive Steps (s : Source) (c : Cursor) : Option Token → Cursor → Prop
  | text : c.rest.head? ≠ some '<' → Steps s c none (c.skipWhile (· != '<'))
  | comment {n : Nat} {x : Option Token} : "<!--".toList <+: c.rest →
      indexOf? "-->".toList (c.drop 4).rest = some n →
      comment s (s.location c.pos ((c.drop 4).drop (n + 3)).pos)
        (commentBody (c.drop 4) n) = .ok x →
      Steps s c x ((c.drop 4).drop (n + 3))
  | skipped {terminator : String} {construct : Construct} {c' : Cursor} : terminator.toList ≠ [] →
      skipPast terminator construct c = .ok c' → Steps s c none c'
  | endTag {e : Element} {c' : Cursor} : c.rest.head? = some '<' →
      endTag s c = .ok (.element e, c') → Steps s c (some (.element e)) c'
  | startTag {e : Element} {c' : Cursor} : c.rest.head? = some '<' →
      startTag s c = .ok (.element e, c') → Steps s c (some (.element e)) c'
  | bracket : c.rest.head? = some '<' → Steps s c none (c.drop 1)

theorem commentStep_of_indexOf? {n : Nat} (h : indexOf? "-->".toList (c.drop 4).rest = some n) :
    commentStep s c =
      (comment s (s.location c.pos ((c.drop 4).drop (n + 3)).pos) (commentBody (c.drop 4) n)).map
        fun x => (x, (c.drop 4).drop (n + 3)) := by
  unfold commentStep
  dsimp only
  rw [h]
  rfl

theorem steps_of_commentStep (hopen : "<!--".toList <+: c.rest) {x : Option Token}
    (h : commentStep s c = .ok (x, c')) : Steps s c x c' := by
  cases hn : indexOf? "-->".toList (c.drop 4).rest with
  | none =>
    unfold commentStep at h
    dsimp only at h
    rw [hn] at h
    cases h
  | some n =>
    rw [commentStep_of_indexOf? hn] at h
    obtain ⟨y, hcomment, h⟩ := Except.map_eq_ok.mp h
    cases h
    exact .comment hopen hn hcomment

/-- A construct is nothing else. -/
theorem steps_of_step {x : Option Token} (h : step s c = .ok (x, c')) : Steps s c x c' := by
  have hskipped : ∀ {terminator construct}, terminator.toList ≠ [] →
      (skipPast terminator construct c).map (none, ·) = .ok (x, c') → Steps s c x c' := by
    intro terminator construct hne h
    obtain ⟨after, hafter, h⟩ := Except.map_eq_ok.mp h
    cases h
    exact .skipped hne hafter
  unfold step at h
  split at h
  · next hopen =>
    cases h
    exact .text hopen
  next hopen =>
  rw [ne_eq, not_not] at hopen
  split at h
  · next hcomment => exact steps_of_commentStep (List.isPrefixOf_iff_prefix.mp hcomment) h
  split at h
  · exact hskipped (by decide) h
  split at h
  · exact hskipped (by decide) h
  split at h
  · exact hskipped (by decide) h
  split at h
  · obtain ⟨⟨tag, after⟩, htag, h⟩ := Except.map_eq_ok.mp h
    cases h
    obtain ⟨_, -, -, -, rfl⟩ := exists_of_endTag htag
    exact .endTag hopen htag
  split at h
  · obtain ⟨⟨tag, after⟩, htag, h⟩ := Except.map_eq_ok.mp h
    cases h
    obtain ⟨_, _, _, _, -, rfl, -⟩ := exists_of_startTag htag
    exact .startTag hopen htag
  · cases h
    exact .bracket hopen

/-! ### Views -/

/-- When void elements are made empty, a token stays as it is, or a start tag becomes an empty
tag. -/
theorem normalizeToken_cases {x y : Token} (h : normalizeToken x = some y) :
    y = x ∨ ∃ e, x = .element e ∧ e.type = .start ∧ y = .element { e with type := .empty } := by
  cases x with
  | directive d =>
    cases h
    exact .inl rfl
  | element e =>
    dsimp only [normalizeToken] at h
    split at h
    · cases h
      exact .inl rfl
    · split at h
      · next htype =>
        cases h
        exact .inr ⟨e, rfl, htype, rfl⟩
      · cases h
      · cases h
        exact .inl rfl

/-- The tokens of a view are those of its constructs, with void elements made empty in HTML. -/
theorem scan_of_tokenize {file : String} {text : List Char} {options : Options}
    {tokenized : Tokenized} (h : tokenize file text options = .ok tokenized) :
    ∃ s xs, s.text = stripMark text ∧ scan s s.text.length ⟨0, s.text⟩ = .ok xs ∧
      tokenized.dialect = s.dialect ∧
      tokenized.tokens = if s.dialect = .html then normalizeVoid xs else xs := by
  unfold tokenize at h
  dsimp only at h
  split at h
  · cases h
  · next xs hscan =>
    cases h
    exact ⟨_, xs, rfl, hscan, rfl, rfl⟩

/-- A token of a view is one of its constructs, or a start tag of theirs that has become empty. -/
theorem exists_mem_scan {xs : List Token} {y : Token}
    (h : y ∈ if s.dialect = .html then normalizeVoid xs else xs) :
    ∃ x ∈ xs, y = x ∨ ∃ e, x = .element e ∧ e.type = .start ∧
      y = .element { e with type := .empty } := by
  split at h
  · obtain ⟨x, hx, hnormal⟩ := List.mem_filterMap.mp h
    exact ⟨x, hx, normalizeToken_cases hnormal⟩
  · exact ⟨y, h, .inl rfl⟩

end ViewLint.Markup
