import ViewLint.Proofs.Markup.Tiling

/-!
# Constructs one after the other

Reading a view goes on behind each construct, which has taken at least one character.  So the
tokens behind a token are what is read from the place at which its construct has left the cursor.  A
token that is a tag comes from a start tag, from an end tag, or from a comment.

## Main results

* `Markup.pos_lt_of_step` — a construct takes a character.
* `Markup.element_of_step` — where a tag comes from.
* `Markup.exists_of_scan` — the constructs of a token and of the tokens behind it.
* `Markup.exists_of_tokenize` — the same for the tokens of a view, where void elements are empty.
* `Markup.tag_of_virtual` — the name of virtual elements.
-/

namespace ViewLint.Markup

open Text

variable {s : Source} {c c' : Cursor}

/-! ### One construct -/

theorem pos_drop (c : Cursor) {n : Nat} (hn : n ≤ c.rest.length) : (c.drop n).pos = c.pos + n := by
  rw [Cursor.drop, List.length_take_of_le hn]

/-- A construct that makes no token takes a character, too. -/
theorem pos_lt_of_skipPast {terminator : String} {construct : Construct}
    (hne : terminator.toList ≠ []) (h : skipPast terminator construct c = .ok c') :
    c.pos < c'.pos := by
  unfold skipPast at h
  split at h
  · next n hn =>
    cases h
    have hpos := (reads_of_indexOf? hn).pos
    rw [String.length_toList, List.length_append, String.length_toList] at hpos
    have hlength := List.length_pos_iff.mpr hne
    rw [String.length_toList] at hlength
    omega
  · cases h

/-- A construct takes a character. -/
theorem pos_lt_of_step (hc : c.In s.text) (hne : c.rest ≠ []) {x : Option Token}
    (h : step s c = .ok (x, c')) : c.pos < c'.pos := by
  have hlength := List.length_pos_iff.mpr hne
  -- a token has characters
  have htag : ∀ {y}, Row (Token.Sits s.text) c'.pos c.pos [y] → c.pos < c'.pos := by
    rintro y ⟨i, j, hi, -, hsits, hj⟩
    have hlt := hsits.1
    have hle : j ≤ c'.pos := hj
    omega
  cases steps_of_step h with
  | text hopen =>
    -- the first character is passed over
    obtain ⟨x, rest, hrest⟩ := List.exists_cons_of_ne_nil hne
    have hx : (x != '<') = true := by
      rw [hrest, List.head?_cons, ne_eq, Option.some.injEq] at hopen
      exact bne_iff_ne.mpr hopen
    rw [Cursor.skipWhile, pos_drop _ (List.takeWhile_prefix _).length_le, hrest,
      List.takeWhile_cons_of_pos (p := fun x => x != '<') hx, List.length_cons]
    omega
  | @comment n _ hopen _ _ =>
    have hopening : c.Reads "<!--".toList (c.drop 4) := Cursor.reads_of_prefix hopen
    have hle := ((c.drop 4).reaches_drop (n + 3)).pos_le
    have hpos := hopening.pos
    have hfour : "<!--".toList.length = 4 := by decide
    omega
  | skipped hterminator hafter => exact pos_lt_of_skipPast hterminator hafter
  | endTag hopen hend => exact htag (sits_endTag hc hopen hend).2
  | startTag hopen hstart => exact htag (sits_startTag hc hopen hstart).2
  | bracket =>
    rw [pos_drop c hlength]
    omega

/-- A tag comes from a comment, from an end tag, or from a start tag. -/
theorem element_of_step {e : Element} (h : step s c = .ok (some (.element e), c')) :
    (e.isVirtual = true ∧ e.tag = virtualTag) ∨
      endTag s c = .ok (.element e, c') ∨ startTag s c = .ok (.element e, c') := by
  cases steps_of_step h with
  | comment _ _ hcomment =>
    cases makes_of_comment hcomment with
    | stop => exact .inl ⟨rfl, rfl⟩
    | start => exact .inl ⟨rfl, rfl⟩
  | endTag _ hend => exact .inr (.inl hend)
  | startTag _ hstart => exact .inr (.inr hstart)

theorem element_of_endTag {e : Element} (h : endTag s c = .ok (.element e, c')) :
    e.type = .stop ∧ e.isVirtual = false := by
  obtain ⟨name, -, -, -, he⟩ := exists_of_endTag h
  cases he
  exact ⟨rfl, rfl⟩

/-- Behind a start tag the text is read on, or from where its raw content ends. -/
theorem element_of_startTag (hc : c.In s.text) {e : Element}
    (h : startTag s c = .ok (.element e, c')) :
    e.isVirtual = false ∧ ∃ after, c.Reaches after ∧ e.location = s.location c.pos after.pos ∧
      c' = if s.isRaw e.tag e.type then skipRaw e.tag after else after := by
  obtain ⟨name, type, ps, after, hattributes, he, hafter⟩ := exists_of_startTag h
  have hnamed := (c.reaches_drop 1).trans (Cursor.reaches_drop (c.drop 1) name.length)
  have hfuel := Nat.lt_succ_of_le hnamed.length_le
  obtain ⟨last, hlast, hclose, -⟩ := row_attributes _ hfuel (hc.reaches hnamed) hattributes
  cases he
  exact ⟨rfl, after, (hnamed.trans hlast).trans hclose.reaches, rfl, hafter⟩

/-! ### All constructs -/

/-- The construct that makes a token, and those that make the tokens behind it. -/
theorem exists_of_scan (fuel : Nat) (hfuel : c.rest.length ≤ fuel) (hc : c.In s.text)
    {xs ys : List Token} {x : Token} (h : scan s fuel c = .ok (xs ++ x :: ys)) :
    ∃ fuel' c₁ c₂, c.Reaches c₁ ∧ step s c₁ = .ok (some x, c₂) ∧ c₂.rest.length ≤ fuel' ∧
      scan s fuel' c₂ = .ok ys := by
  induction fuel generalizing c xs with
  | zero =>
    have hnil : [] = xs ++ x :: ys := Except.ok.inj h
    simp at hnil
  | succ fuel ih =>
    unfold scan at h
    split at h
    · have hnil : [] = xs ++ x :: ys := Except.ok.inj h
      simp at hnil
    · next hend =>
      obtain ⟨⟨token, after⟩, hstep, h⟩ := Except.bind_eq_ok.mp h
      dsimp only at h
      obtain ⟨tokens, htokens, h⟩ := Except.bind_eq_ok.mp h
      have hne : c.rest ≠ [] := fun hnil => hend (List.isEmpty_iff.mpr hnil)
      have hreach := (sits_step hc hstep).1
      have hpos := pos_lt_of_step hc hne hstep
      have hstop : after.pos + after.rest.length = c.pos + c.rest.length := hreach.stop_eq
      have hfuel' : after.rest.length ≤ fuel := by omega
      have hsplit : token.toList ++ tokens = xs ++ x :: ys := Except.ok.inj h
      -- the token is that of this construct, or of a later one
      have hlater : ∀ xs', tokens = xs' ++ x :: ys →
          ∃ fuel' c₁ c₂, c.Reaches c₁ ∧ step s c₁ = .ok (some x, c₂) ∧ c₂.rest.length ≤ fuel' ∧
            scan s fuel' c₂ = .ok ys := by
        rintro xs' rfl
        obtain ⟨fuel', c₁, c₂, hc₁, hrest⟩ := ih hfuel' (hc.reaches hreach) htokens
        exact ⟨fuel', c₁, c₂, hreach.trans hc₁, hrest⟩
      cases token with
      | none => exact hlater xs hsplit
      | some y =>
        cases xs with
        | nil =>
          obtain ⟨rfl, rfl⟩ := List.cons.inj hsplit
          exact ⟨fuel, c, after, .refl c, hstep, hfuel', htokens⟩
        | cons y' xs' => exact hlater xs' (List.cons.inj hsplit).2

/-- What is left of a list, from one of its members on, comes from the list from a member on. -/
theorem exists_of_getElem?_filterMap {α β : Type} {f : α → Option β} {l : List α} {i : Nat} {b : β}
    (h : (l.filterMap f)[i]? = some b) :
    ∃ xs a ys, l = xs ++ a :: ys ∧ f a = some b ∧
      (l.filterMap f).drop (i + 1) = ys.filterMap f := by
  induction l generalizing i with
  | nil => cases h
  | cons a l ih =>
    cases hfa : f a with
    | none =>
      rw [List.filterMap_cons_none hfa] at h ⊢
      obtain ⟨xs, a', ys, rfl, hrest⟩ := ih h
      exact ⟨a :: xs, a', ys, rfl, hrest⟩
    | some b' =>
      rw [List.filterMap_cons_some hfa] at h ⊢
      cases i with
      | zero =>
        cases h
        exact ⟨[], a, l, rfl, hfa, rfl⟩
      | succ i =>
        obtain ⟨xs, a', ys, rfl, hrest⟩ := ih h
        exact ⟨a :: xs, a', ys, rfl, hrest⟩

/-- The construct that makes a token of an HTML view, and those that make the tokens behind it. -/
theorem exists_of_tokenize {file : String} {text : List Char} {options : Options}
    {tokenized : Tokenized} (h : tokenize file text options = .ok tokenized)
    (hhtml : tokenized.dialect = .html) {i : Nat} {x : Token} (hx : tokenized.tokens[i]? = some x) :
    ∃ s fuel c₁ c₂ y ys, s.text = stripMark text ∧ s.dialect = .html ∧
      (⟨0, s.text⟩ : Cursor).Reaches c₁ ∧ step s c₁ = .ok (some y, c₂) ∧ normalizeToken y = some x ∧
      c₂.rest.length ≤ fuel ∧ scan s fuel c₂ = .ok ys ∧
      tokenized.tokens.drop (i + 1) = normalizeVoid ys := by
  obtain ⟨s, zs, htext, hscan, hdialect, htokens⟩ := scan_of_tokenize h
  rw [hdialect] at hhtml
  rw [htokens, if_pos hhtml] at hx ⊢
  obtain ⟨xs, y, ys, rfl, hy, hdrop⟩ := exists_of_getElem?_filterMap hx
  obtain ⟨fuel, c₁, c₂, hc₁, hstep, hfuel, hrest⟩ :=
    exists_of_scan _ (Nat.le_refl _) (Cursor.in_start _) hscan
  exact ⟨s, fuel, c₁, c₂, y, ys, htext, hhtml, hc₁, hstep, hy, hfuel, hrest, hdrop⟩

/-- All virtual elements of a view have one name. -/
theorem tag_of_virtual {file : String} {text : List Char} {options : Options}
    {tokenized : Tokenized} (h : tokenize file text options = .ok tokenized) {e : Element}
    (he : .element e ∈ tokenized.tokens) (hvirtual : e.isVirtual = true) : e.tag = virtualTag := by
  obtain ⟨s, zs, -, hscan, -, htokens⟩ := scan_of_tokenize h
  have hread : ∀ e, .element e ∈ zs → e.isVirtual = true → e.tag = virtualTag := by
    intro e he hvirtual
    obtain ⟨xs, ys, rfl⟩ := List.append_of_mem he
    obtain ⟨-, c₁, c₂, hc₁, hstep, -⟩ :=
      exists_of_scan _ (Nat.le_refl _) (Cursor.in_start _) hscan
    rcases element_of_step hstep with ⟨-, htag⟩ | hend | hstart
    · exact htag
    · rw [(element_of_endTag hend).2] at hvirtual
      cases hvirtual
    · rw [(element_of_startTag ((Cursor.in_start _).reaches hc₁) hstart).1] at hvirtual
      cases hvirtual
  -- void elements keep their name and their kind when they are made empty
  rw [htokens] at he
  obtain ⟨x, hx, rfl | ⟨e', rfl, -, hempty⟩⟩ := exists_mem_scan he
  · exact hread e hx hvirtual
  · cases hempty
    exact hread e' hx hvirtual

end ViewLint.Markup
