import Mathlib.Data.List.TakeWhile
import ViewLint.Proofs.Markup.Constructs

/-!
# Comments with directives

A comment ends where `-->` first stands behind its opening, and its body is what is between them,
without the blanks around it.  So what a comment tells the linter depends on its body only, and a
view that is nothing but a comment is read as the body of that comment is.

## Main definitions

* `Text.Stops` — a text does not begin with characters of some sort.
* `Markup.directiveComment` — the comment with a given first word and a given text behind it.

## Main results

* `Text.indexOf?_append_cons`, `Text.not_infix_take_of_indexOf?` — the first occurrence of a text.
* `Text.trimEnd_append` — blanks at the end of a text.
* `Markup.exists_of_directive` — the comment that a directive of a view comes from.
* `Markup.tokenize_directiveComment` — a view that is a comment.
-/

namespace ViewLint

namespace Text

/-! ### Occurrences -/

/-- A text without a character occurs before or behind it, but not across. -/
theorem infix_of_infix_append_cons {p u v : List Char} {x : Char} (hp : p ≠ []) (hx : x ∉ p)
    (h : p <:+: u ++ x :: v) : p <:+: u ∨ p <:+: v := by
  have hfirst : ∀ {q}, q ≠ [] → q <+: x :: v → x ∈ q := by
    intro q hq hbegin
    obtain ⟨y, q, rfl⟩ := List.exists_cons_of_ne_nil hq
    rw [(List.cons_prefix_cons.mp hbegin).1]
    exact List.mem_cons_self
  rcases List.infix_append_iff_ne_nil.mp h with h | h | ⟨q, r, -, hr, rfl, -, hbegin⟩
  · exact .inl h
  · rcases List.infix_cons_iff.mp h with h | h
    · exact absurd (hfirst hp h) hx
    · exact .inr h
  · exact absurd (List.mem_append_right _ (hfirst hr hbegin)) hx

/-- The first occurrence of a text is the one behind a character that it does not have, if there is
none before that. -/
theorem indexOf?_append_cons {p u : List Char} {x : Char} (hp : p ≠ []) (hx : x ∉ p)
    (h : ¬ p <:+: u) (v : List Char) : indexOf? p (u ++ x :: (p ++ v)) = some (u.length + 1) := by
  have hnot : ∀ {t}, t <:+ u → ¬ p <+: t ++ x :: (p ++ v) := by
    intro t ht hbegin
    rcases List.prefix_or_prefix_of_prefix hbegin (List.prefix_append _ _) with hbegin | ⟨q, rfl⟩
    · exact h (hbegin.isInfix.trans ht.isInfix)
    · cases q with
      | nil => exact h (by rw [List.append_nil]; exact ht.isInfix)
      | cons y q =>
        have hy := (List.cons_prefix_cons.mp ((List.prefix_append_right_inj _).mp hbegin)).1
        exact hx (hy ▸ List.mem_append_right _ List.mem_cons_self)
  induction u with
  | nil =>
    have hself : indexOf? p (p ++ v) = some 0 := by
      obtain ⟨y, p, rfl⟩ := List.exists_cons_of_ne_nil hp
      rw [List.cons_append, indexOf?, if_pos (by simp)]
    rw [List.nil_append, indexOf?, if_neg, hself]
    · rfl
    · rw [List.isPrefixOf_iff_prefix]
      exact hnot (List.suffix_refl [])
  | cons y u ih =>
    rw [List.cons_append, indexOf?, if_neg,
      ih fun hu => h (hu.trans (List.suffix_cons y u).isInfix)]
    · rfl
    · exact fun ht => hnot (ht.trans (List.suffix_cons y u))
    · rw [List.isPrefixOf_iff_prefix]
      exact hnot (List.suffix_refl _)

/-- Before the first occurrence of a text there is none. -/
theorem not_infix_take_of_indexOf? {p t : List Char} {n : Nat} (hp : p ≠ [])
    (h : indexOf? p t = some n) : ¬ p <:+: t.take n := by
  induction t generalizing n with
  | nil => simpa using hp
  | cons c t ih =>
    rw [indexOf?] at h
    split at h
    · cases h
      simpa using hp
    · next hno =>
      obtain ⟨m, hm, rfl⟩ := Option.map_eq_some_iff.mp h
      rw [List.take_succ_cons, List.infix_cons_iff, not_or]
      refine ⟨fun hbegin => hno (List.isPrefixOf_iff_prefix.mpr ?_), ih hm⟩
      exact hbegin.trans ((List.prefix_cons_inj c).mpr (List.take_prefix m t))

/-! ### Characters of some sort -/

/-- A text does not begin with a character of some sort. -/
def Stops (p : Char → Bool) (t : List Char) : Prop := ∀ x, t.head? = some x → p x = false

theorem stops_nil (p : Char → Bool) : Stops p [] := fun _ h => nomatch h

theorem stops_cons {p : Char → Bool} {x : Char} {t : List Char} : Stops p (x :: t) ↔ p x = false :=
  ⟨fun h => h x rfl, fun h y hy => by cases hy; exact h⟩

theorem stops_dropWhile (p : Char → Bool) (t : List Char) : Stops p (t.dropWhile p) := by
  intro x hx
  have hnot := List.head?_dropWhile_not p t
  rw [hx] at hnot
  simpa using hnot

theorem Stops.of_append {p : Char → Bool} {t u : List Char} (h : Stops p (t ++ u)) : Stops p t := by
  cases t with
  | nil => exact stops_nil p
  | cons x t => exact stops_cons.mpr (stops_cons.mp h)

theorem dropWhile_of_stops {p : Char → Bool} {t : List Char} (h : Stops p t) :
    t.dropWhile p = t := by
  cases t with
  | nil => rfl
  | cons x t => rw [List.dropWhile_cons_of_neg (by simp [stops_cons.mp h])]

theorem takeWhile_append_of_stops {p : Char → Bool} {u t : List Char} (hu : ∀ x ∈ u, p x = true)
    (ht : Stops p t) : (u ++ t).takeWhile p = u := by
  rw [List.takeWhile_append_of_pos hu]
  cases t with
  | nil => simp
  | cons x t => simp [stops_cons.mp ht]

/-- Moving over the characters of some sort that a text begins with. -/
theorem Cursor.skipWhile_of_stops {p : Char → Bool} {c : Cursor} {u t : List Char}
    (hrest : c.rest = u ++ t) (hu : ∀ x ∈ u, p x = true) (ht : Stops p t) :
    c.skipWhile p = ⟨c.pos + u.length, t⟩ := by
  rw [skipWhile, drop, hrest, takeWhile_append_of_stops hu ht, List.take_left, List.drop_left]

theorem Cursor.reads_skipWhile (c : Cursor) (p : Char → Bool) :
    c.Reads (c.rest.takeWhile p) (c.skipWhile p) :=
  reads_of_prefix (List.takeWhile_prefix p)

theorem Cursor.rest_skipWhile (c : Cursor) (p : Char → Bool) :
    (c.skipWhile p).rest = c.rest.dropWhile p := by
  have h := Cursor.skipWhile_of_stops (c := c) (List.takeWhile_append_dropWhile (p := p)).symm
    (fun x hx => List.mem_takeWhile_imp hx) (stops_dropWhile p c.rest)
  rw [h]

theorem Cursor.skipWhile_skipWhile (c : Cursor) (p : Char → Bool) :
    (c.skipWhile p).skipWhile p = c.skipWhile p := by
  have hstops : Stops p (c.skipWhile p).rest := by
    rw [c.rest_skipWhile]
    exact stops_dropWhile p c.rest
  rw [Cursor.skipWhile_of_stops (c := c.skipWhile p) (u := []) rfl (List.forall_mem_nil _) hstops]
  rfl

/-! ### Blanks around a text -/

theorem trimEnd_append {u : List Char} (hu : ∀ x ∈ u, isBlank x = false) (t : List Char) :
    trimEnd (u ++ t) = u ++ trimEnd t := by
  have hstay : u.reverse.dropWhile isBlank = u.reverse := by
    rw [List.dropWhile_eq_self_iff]
    intro h
    simp [hu]
  rw [trimEnd, List.reverse_append, List.dropWhile_append, hstay]
  split
  · next hempty => rw [trimEnd, List.isEmpty_iff.mp hempty]; simp
  · rw [List.reverse_append, List.reverse_reverse, trimEnd]

/-- What is cut off at the end of a text are blanks. -/
theorem exists_eq_trimEnd_append (t : List Char) :
    ∃ blanks, (∀ x ∈ blanks, isBlank x = true) ∧ t = trimEnd t ++ blanks := by
  refine ⟨(t.reverse.takeWhile isBlank).reverse, ?_, ?_⟩
  · intro x hx
    exact List.mem_takeWhile_imp (List.mem_reverse.mp hx)
  · rw [trimEnd, ← List.reverse_append, List.takeWhile_append_dropWhile, List.reverse_reverse]

theorem trimEnd_concat {u : List Char} {x : Char} (hx : isBlank x = false) :
    trimEnd (' ' :: (u ++ [x] ++ [' '])) = ' ' :: (u ++ [x]) := by
  have hspace : isBlank ' ' = true := by decide
  simp [trimEnd, hx, hspace]

/-- Behind the first word of a comment there is a blank, or nothing at all. -/
theorem stops_trimEnd (t : List Char) : Stops (!isBlank ·) (trimEnd (' ' :: (t ++ [' ']))) := by
  obtain ⟨blanks, -, hsplit⟩ := exists_eq_trimEnd_append (' ' :: (t ++ [' ']))
  have hfirst : Stops (!isBlank ·) (' ' :: (t ++ [' '])) := stops_cons.mpr (by decide)
  rw [hsplit] at hfirst
  exact hfirst.of_append

end Text

namespace Markup

open Text

variable {s : Source} {c c' : Cursor}

/-! ### The comment of a directive -/

theorem rest_commentBody (c : Cursor) (n : Nat) :
    (commentBody c n).rest = trimEnd (trimStart (c.rest.take n)) := by
  rw [commentBody, Cursor.rest_skipWhile]
  rfl

/-- A directive comes from a comment, in whose body there is no end of a comment. -/
theorem exists_of_directive_step (hc : c.In s.text) {d : Directive}
    (h : step s c = .ok (some (.directive d), c')) :
    ∃ whole body, body.In s.text ∧ ¬ "-->".toList <:+: body.rest ∧
      comment s whole body = .ok (some (.directive d)) := by
  cases steps_of_step h with
  | @comment n _ _ hn hcomment =>
    refine ⟨_, _, in_commentBody (hc.reaches (c.reaches_drop 4)) n, fun hend => ?_, hcomment⟩
    refine not_infix_take_of_indexOf? (by decide) hn (hend.trans ?_)
    rw [rest_commentBody]
    exact (prefix_trimEnd _).isInfix.trans (List.dropWhile_suffix _).isInfix

/-- The comment that a directive of a view comes from. -/
theorem exists_of_directive {file : String} {text : List Char} {options : Options}
    {tokenized : Tokenized} (h : tokenize file text options = .ok tokenized) {d : Directive}
    (hd : .directive d ∈ tokenized.tokens) :
    ∃ s whole body, body.In s.text ∧ ¬ "-->".toList <:+: body.rest ∧
      comment s whole body = .ok (some (.directive d)) := by
  obtain ⟨s, zs, -, hscan, -, htokens⟩ := scan_of_tokenize h
  rw [htokens] at hd
  obtain ⟨x, hx, rfl | ⟨e, -, -, hempty⟩⟩ := exists_mem_scan hd
  · obtain ⟨xs, ys, rfl⟩ := List.append_of_mem hx
    obtain ⟨-, c₁, c₂, hc₁, hstep, -⟩ := exists_of_scan _ (Nat.le_refl _) (Cursor.in_start _) hscan
    exact ⟨s, exists_of_directive_step ((Cursor.in_start _).reaches hc₁) hstep⟩
  · cases hempty

/-! ### A view that is a comment -/

/-- The comment with a first word and a text behind it. -/
def directiveComment (word : String) (t : List Char) : List Char :=
  "<!-- ".toList ++ (word.toList ++ ' ' :: (t ++ " -->".toList))

theorem scan_of_atEnd (fuel : Nat) (hend : c.rest = []) : scan s fuel c = .ok [] := by
  cases fuel with
  | zero => rfl
  | succ fuel => rw [scan, if_pos (by rw [Cursor.atEnd, hend]; rfl)]

/-- A view that is a comment is read as the body of the comment is. -/
theorem tokenize_comment {content : List Char}
    (h : indexOf? "-->".toList (content ++ "-->".toList) = some content.length) (file : String)
    (options : Options) :
    ∃ s whole body, body.In s.text ∧ body.rest = trimEnd (trimStart content) ∧
      tokenize file ("<!--".toList ++ (content ++ "-->".toList)) options =
        match comment s whole body with
        | .error f => .error (s.diagnostic f)
        | .ok x => .ok ⟨if s.dialect = .html then normalizeVoid x.toList else x.toList,
          s.dialect⟩ := by
  generalize ht : "<!--".toList ++ (content ++ "-->".toList) = t
  let s := source file t options
  let c : Cursor := ⟨0, t⟩
  have htext : s.text = t := stripMark_eq_self (by simp [← ht])
  have hcontent : (c.drop 4).rest = content ++ "-->".toList := by simp [c, Cursor.drop, ← ht]
  have hend : ((c.drop 4).drop (content.length + 3)).rest = [] := by
    simp [c, Cursor.drop, ← ht]
  have hstep : step s c = commentStep s c := by simp [step, Cursor.startsWith, c, ← ht]
  rw [commentStep_of_indexOf? (hcontent ▸ h)] at hstep
  have hstart : c.In s.text := by
    rw [htext]
    exact Cursor.in_start t
  have hin := in_commentBody (hstart.reaches (c.reaches_drop 4)) content.length
  have hrest : (commentBody (c.drop 4) content.length).rest = trimEnd (trimStart content) := by
    rw [rest_commentBody, hcontent, List.take_left]
  generalize s.location c.pos ((c.drop 4).drop (content.length + 3)).pos = whole at hstep
  generalize commentBody (c.drop 4) content.length = body at hstep hin hrest
  refine ⟨s, whole, body, hin, hrest, ?_⟩
  -- nothing is left behind the comment
  have hscan : scan s s.text.length ⟨0, s.text⟩ = (comment s whole body).map Option.toList := by
    rw [htext]
    obtain ⟨x, rest, rfl⟩ : ∃ x rest, t = x :: rest := ⟨_, _, ht.symm⟩
    rw [List.length_cons, scan, if_neg (by simp [Cursor.atEnd]), hstep]
    cases comment s whole body with
    | error f => rfl
    | ok x =>
      change (scan s rest.length _ >>= fun tokens => .ok (x.toList ++ tokens)) = .ok x.toList
      rw [scan_of_atEnd _ hend]
      exact congrArg Except.ok (List.append_nil _)
  unfold tokenize
  dsimp only
  rw [show scan (source file t options) _ _ = _ from hscan]
  cases comment s whole body <;> rfl

/-- A view that is a comment is read as the body of the comment is.  The first word has neither
blanks nor the end of a comment in it, and the text behind it has not the latter. -/
theorem tokenize_directiveComment {word : String} {t : List Char} (hne : word.toList ≠ [])
    (hletters : word.toList.all fun x => !isBlank x && x != '>') (ht : ¬ "-->".toList <:+: t)
    (file : String) (options : Options) :
    ∃ s whole body, body.In s.text ∧
      body.rest = word.toList ++ trimEnd (' ' :: (t ++ [' '])) ∧
      tokenize file (directiveComment word t) options =
        match comment s whole body with
        | .error f => .error (s.diagnostic f)
        | .ok x => .ok ⟨if s.dialect = .html then normalizeVoid x.toList else x.toList,
          s.dialect⟩ := by
  have hword : ∀ x ∈ word.toList, isBlank x = false ∧ x ≠ '>' := by
    simpa [List.all_eq_true] using hletters
  let content := ' ' :: (word.toList ++ ' ' :: (t ++ [' ']))
  have hcomment : directiveComment word t = "<!--".toList ++ (content ++ "-->".toList) := by
    simp [directiveComment, content]
  -- the end of the comment is behind the last blank
  have hbefore : ¬ "-->".toList <:+: ' ' :: word.toList ++ ' ' :: t := by
    intro h
    rcases infix_of_infix_append_cons (by decide) (x := ' ') (by decide) h with h | h
    · have hbracket : '>' ∈ ' ' :: word.toList := h.subset (by decide)
      exact (hword '>' (List.mem_of_ne_of_mem (by decide) hbracket)).2 rfl
    · exact ht h
  have hindex : indexOf? "-->".toList (content ++ "-->".toList) = some content.length := by
    have hfirst := indexOf?_append_cons (by decide) (x := ' ') (by decide) hbefore []
    simpa [content, Nat.add_assoc] using hfirst
  have htrim : trimEnd (trimStart content) = word.toList ++ trimEnd (' ' :: (t ++ [' '])) := by
    rw [← trimEnd_append fun x hx => (hword x hx).1]
    refine congrArg trimEnd ?_
    obtain ⟨x, word', hx⟩ := List.exists_cons_of_ne_nil hne
    have hblank := (hword x (hx ▸ List.mem_cons_self)).1
    have hspace : isBlank ' ' = true := by decide
    simp [content, trimStart, hx, hblank, hspace]
  obtain ⟨s, whole, body, hin, hrest, htokenize⟩ := tokenize_comment hindex file options
  exact ⟨s, whole, body, hin, hrest.trans htrim, hcomment ▸ htokenize⟩

/-- A view that is the comment of a directive is read as the text behind the first word of the
comment is. -/
theorem tokenize_directive {word : String} {read : Source → Location → Reading Directive}
    (hne : word.toList ≠ []) (hletters : word.toList.all fun x => !isBlank x && x != '>')
    (hcomment : ∀ {s whole body t}, body.rest = word.toList ++ t → Stops (!isBlank ·) t →
      comment s whole body =
        ((read s (s.location body.pos body.stop)).run' (body.drop word.toList.length)).map
          fun d => some (.directive d))
    {t : List Char} (ht : ¬ "-->".toList <:+: t) (file : String) (options : Options) :
    ∃ s location c, c.In s.text ∧ c.rest = trimEnd (' ' :: (t ++ [' '])) ∧
      tokenize file (directiveComment word t) options =
        match read s location c with
        | .error f => .error (s.diagnostic f)
        | .ok (d, _) => .ok ⟨[.directive d], s.dialect⟩ := by
  obtain ⟨s, whole, body, hin, hrest, htokenize⟩ :=
    tokenize_directiveComment hne hletters ht file options
  refine ⟨s, s.location body.pos body.stop, body.drop word.toList.length,
    hin.reaches (body.reaches_drop _), ?_, ?_⟩
  · rw [Cursor.drop, hrest, List.drop_left]
  · rw [htokenize, hcomment hrest (stops_trimEnd t), StateT.run']
    cases read s (s.location body.pos body.stop) (body.drop word.toList.length) with
    | error f => rfl
    | ok y =>
      change Except.ok _ = _
      have hnormal : normalizeVoid [.directive y.1] = [.directive y.1] := rfl
      simp [hnormal]

end Markup

end ViewLint
