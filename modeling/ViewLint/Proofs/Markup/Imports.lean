import ViewLint.Proofs.Markup.Lexemes

/-!
# The grammar of imports

An import says what a view takes from a module, and where the module is.  The grammar derives a list
of lexical elements together with what they mean: the names of the symbols, the names that they are
given, and the path of the module.  Reading follows the grammar from left to right.  The words `as`
and `from` may be names as well, but never where reading looks for them as words: behind the name of
an item stands a mark if not `as`, and behind a clause always `from`.

## Main definitions

* `Markup.ImportItem`, `Markup.ImportItems`, `Markup.ImportList`, `Markup.ImportClause` — the rules.
* `Markup.DerivesImport` — a text is derived as an import.

## Main results

* `Markup.takes_importSymbols`, `Markup.takes_importClause` — what has been read is derived.
* `Markup.importSymbols_derived`, `Markup.importClause_derived` — what is derived is read.
* `import_read_iff_derived` — the comment of an import is read if and only if its text is derived,
  and as what it is derived.
-/

namespace ViewLint

open Text

/-- The name of a symbol, and the name that it is given. -/
def ImportSymbol.pair (x : ImportSymbol) : String × String := (x.name.value, x.given.value)

namespace Markup

variable {s : Source} {c c' : Cursor} {xs ys : List Lexeme} {v : String × String}
  {vs : List (String × String)}

/-! ### The grammar -/

/-- An item of a list: the name of a symbol, with the name that it is given if there is one. -/
inductive ImportItem : List Lexeme → String × String → Prop
  | plain (name : List Char) : ImportItem [.word name] (.ofList name, .ofList name)
  | renamed (name given : List Char) :
      ImportItem [.word name, .word "as".toList, .word given] (.ofList name, .ofList given)

/-- Items with commas between them, and perhaps one behind the last. -/
inductive ImportItems : List Lexeme → List (String × String) → Prop
  | nil : ImportItems [] []
  | last {xs : List Lexeme} {v : String × String} : ImportItem xs v → ImportItems xs [v]
  | cons {xs ys : List Lexeme} {v : String × String} {vs : List (String × String)} :
      ImportItem xs v → ImportItems ys vs → ImportItems (xs ++ .mark ',' :: ys) (v :: vs)

/-- Items in braces. -/
inductive ImportList : List Lexeme → List (String × String) → Prop
  | braces {xs : List Lexeme} {vs : List (String × String)} :
      ImportItems xs vs → ImportList (.mark '\x7b' :: (xs ++ [.mark '\x7d'])) vs

/-- What is taken from a module. -/
inductive ImportClause : List Lexeme → List (String × String) → Prop
  | everything (given : List Char) :
      ImportClause [.mark '*', .word "as".toList, .word given] [("*", .ofList given)]
  | list {xs : List Lexeme} {vs : List (String × String)} : ImportList xs vs → ImportClause xs vs
  | default (given : List Char) : ImportClause [.word given] [("default", .ofList given)]
  | both (given : List Char) {xs : List Lexeme} {vs : List (String × String)} :
      ImportList xs vs →
        ImportClause (.word given :: .mark ',' :: xs) (("default", .ofList given) :: vs)

/-- A text is derived as an import of some symbols from the module with a path. -/
def DerivesImport (t : List Char) (symbols : List (String × String)) (path : String) : Prop :=
  ∃ xs, ImportClause xs symbols ∧ Spells (xs ++ [.word "from".toList, .quoted path.toList]) t

theorem ImportItem.exists_word (h : ImportItem xs v) : ∃ name ys, xs = .word name :: ys := by
  cases h with
  | plain name => exact ⟨name, _, rfl⟩
  | renamed name given => exact ⟨name, _, rfl⟩

/-! ### What has been read is derived -/

theorem takes_importSymbol (hc : c.In s.text) {x : ImportSymbol}
    (h : importSymbol s c = .ok (x, c')) :
    ∃ xs, ImportItem xs x.pair ∧ Takes c xs c' ∧ c'.rest.length < c.rest.length := by
  obtain ⟨name, c₁, hname, h⟩ := reading_bind_eq_ok h
  have hc₁ := hc.reaches (within_identifier hc hname).1
  obtain ⟨n, hn, htakes₁, hless⟩ := takes_identifier hc hname
  obtain ⟨renamed, c₂, hword, h⟩ := reading_bind_eq_ok h
  have hreach := reaches_eatWord hword
  have hle := hreach.length_le
  have htakes₂ := htakes₁.trans (takes_eatWord (by decide) hword)
  cases renamed with
  | true =>
    obtain ⟨given, c₃, hgiven, h⟩ := reading_bind_eq_ok h
    obtain ⟨g, hg, htakes₃, hless'⟩ := takes_identifier (hc₁.reaches hreach) hgiven
    cases h
    refine ⟨_, ?_, htakes₂.trans htakes₃, by omega⟩
    rw [ImportSymbol.pair, hn, hg]
    exact .renamed n g
  | false =>
    cases h
    refine ⟨_, ?_, htakes₂, by omega⟩
    rw [ImportSymbol.pair, hn]
    exact .plain n

/-- Every symbol takes a character at least, so that reading does not run out of fuel before the end
of the list. -/
theorem takes_importSymbols (fuel : Nat) (hc : c.In s.text) (hfuel : c.rest.length < fuel)
    {symbols : List ImportSymbol} (h : importSymbols s fuel c = .ok (symbols, c')) :
    ∃ xs, ImportItems xs (symbols.map (·.pair)) ∧ Takes c (xs ++ [.mark '\x7d']) c' := by
  -- on the fuel, which stays above the number of characters ahead
  induction fuel generalizing c symbols with
  | zero => exact absurd hfuel (Nat.not_lt_zero _)
  | succ fuel ih =>
    obtain ⟨closed, c₁, hclosed, h⟩ := reading_bind_eq_ok h
    have htakes₁ := takes_eat (by decide) hclosed
    have hreach₁ := reaches_eat hclosed
    cases closed with
    | true =>
      cases h
      exact ⟨[], .nil, htakes₁⟩
    | false =>
      obtain ⟨x, c₂, hx, h⟩ := reading_bind_eq_ok h
      have hreach₂ := hreach₁.trans (within_importSymbol (hc.reaches hreach₁) hx).1
      obtain ⟨xs, hitem, htakes₂, hless⟩ := takes_importSymbol (hc.reaches hreach₁) hx
      obtain ⟨more, c₃, hmore, h⟩ := reading_bind_eq_ok h
      have hreach₃ := reaches_eat hmore
      have htakes₃ := (htakes₁.trans htakes₂).trans (takes_eat (by decide) hmore)
      cases more with
      | true =>
        obtain ⟨rest, c₄, hrest, h⟩ := reading_bind_eq_ok h
        cases h
        have hle₁ := hreach₁.length_le
        have hle₃ := hreach₃.length_le
        obtain ⟨ys, hitems, htakes₄⟩ := ih (hc.reaches (hreach₂.trans hreach₃)) (by omega) hrest
        refine ⟨xs ++ .mark ',' :: ys, .cons hitem hitems, ?_⟩
        have htakes := htakes₃.trans htakes₄
        simpa using htakes
      | false =>
        obtain ⟨u, c₄, hend, h⟩ := reading_bind_eq_ok h
        cases h
        refine ⟨xs, .last hitem, ?_⟩
        have htakes := htakes₃.trans (takes_expect (by decide) hend)
        simpa using htakes

theorem takes_importList (hc : c.In s.text) {symbols : List ImportSymbol}
    (h : importList s c = .ok (symbols, c')) :
    ∃ xs, ImportList xs (symbols.map (·.pair)) ∧ Takes c xs c' := by
  obtain ⟨u, c₁, hopen, h⟩ := reading_bind_eq_ok h
  rw [get_bind] at h
  obtain ⟨xs, hitems, htakes⟩ :=
    takes_importSymbols _ (hc.reaches (reaches_expect hopen)) (Nat.lt_succ_self _) h
  exact ⟨_, .braces hitems, (takes_expect (by decide) hopen).trans htakes⟩

theorem takes_importClause (hc : c.In s.text) {symbols : List ImportSymbol}
    (h : importClause s c = .ok (symbols, c')) :
    ∃ xs, ImportClause xs (symbols.map (·.pair)) ∧ Takes c xs c' := by
  have hskip := c.reaches_skipWhile isBlank
  rw [importClause, skipBlanks_bind, get_bind] at h
  generalize hhead : (c.skipWhile isBlank).rest.head? = o at h
  revert h
  split
  · intro h
    -- the star is read as a mark, and is the name of everything
    obtain ⟨u, c₁, hset, h⟩ := reading_bind_eq_ok h
    cases hset
    have hstar := Cursor.reads_head hhead
    have htakes₁ := takes_of_reads (.mark (by decide)) trivial hstar
    obtain ⟨u, c₂, hword, h⟩ := reading_bind_eq_ok h
    have htakes₂ := htakes₁.trans (takes_expectWord (by decide) hword)
    obtain ⟨given, c₃, hgiven, h⟩ := reading_bind_eq_ok h
    have hreach := (hskip.trans hstar.reaches).trans (reaches_expectWord hword)
    obtain ⟨g, hg, htakes₃, -⟩ := takes_identifier (hc.reaches hreach) hgiven
    cases h
    refine ⟨_, ?_, htakes₂.trans htakes₃⟩
    have hname : (s.ident (c.skipWhile isBlank).pos ((c.skipWhile isBlank).pos + 1)).value = "*" :=
      hstar.pos ▸ value_ident (hc.reaches hskip) hstar
    rw [List.map_singleton, ImportSymbol.pair, hname, hg]
    exact .everything g
  · intro h
    obtain ⟨xs, hlist, htakes⟩ := takes_importList (hc.reaches hskip) h
    exact ⟨xs, .list hlist, (takes_skipWhile c).trans htakes⟩
  · intro h
    obtain ⟨given, c₁, hgiven, h⟩ := reading_bind_eq_ok h
    have hreach₁ := hskip.trans (within_identifier (hc.reaches hskip) hgiven).1
    obtain ⟨g, hg, htakes₁, -⟩ := takes_identifier (hc.reaches hskip) hgiven
    obtain ⟨more, c₂, hmore, h⟩ := reading_bind_eq_ok h
    have hreach₂ := hreach₁.trans (reaches_eat hmore)
    have htakes₂ := ((takes_skipWhile c).trans htakes₁).trans (takes_eat (by decide) hmore)
    cases more with
    | true =>
      obtain ⟨rest, c₃, hrest, h⟩ := reading_bind_eq_ok h
      cases h
      obtain ⟨xs, hlist, htakes₃⟩ := takes_importList (hc.reaches hreach₂) hrest
      refine ⟨_, ?_, htakes₂.trans htakes₃⟩
      rw [List.map_cons, ImportSymbol.pair, hg]
      exact .both g hlist
    | false =>
      cases h
      refine ⟨_, ?_, htakes₂⟩
      rw [List.map_singleton, ImportSymbol.pair, hg]
      exact .default g

theorem derives_of_importDirective (hc : c.In s.text) {location : Location} {x : Directive}
    (h : importDirective s location c = .ok (x, c')) :
    ∃ i, x = .imports i ∧ DerivesImport c.rest (i.symbols.map (·.pair)) i.path.value := by
  obtain ⟨symbols, c₁, hsymbols, h⟩ := reading_bind_eq_ok h
  have hreach₁ := (within_importClause hc hsymbols).1
  obtain ⟨xs, hclause, htakes₁⟩ := takes_importClause hc hsymbols
  obtain ⟨u, c₂, hword, h⟩ := reading_bind_eq_ok h
  have hreach₂ := hreach₁.trans (reaches_expectWord hword)
  have htakes₂ := htakes₁.trans (takes_expectWord (by decide) hword)
  obtain ⟨path, c₃, hpath, h⟩ := reading_bind_eq_ok h
  obtain ⟨t, ht, htakes₃⟩ := takes_quotedString (hc.reaches hreach₂) hpath
  obtain ⟨u, c₄, hend, h⟩ := reading_bind_eq_ok h
  cases h
  refine ⟨_, rfl, xs, hclause, ?_⟩
  have hall := (htakes₂.trans htakes₃) [] (spells_of_finished hend)
  simpa [ht] using hall

/-! ### What is derived is read -/

/-- An item with a mark behind it. -/
theorem importSymbol_derived {m : Char} (hc : c.In s.text) (hitem : ImportItem xs v)
    (h : Spells (xs ++ .mark m :: ys) c.rest) :
    ∃ x c', importSymbol s c = .ok (x, c') ∧ x.pair = v ∧ Spells (.mark m :: ys) c'.rest := by
  cases hitem with
  | plain n =>
    obtain ⟨name, c₁, hname, hn, h⟩ := identifier_word hc h
    have hmark : (.mark m : Lexeme) ≠ .word "as".toList := by simp
    obtain ⟨c₂, hword, h⟩ := eatWord_other (by decide) hmark h
    refine ⟨⟨name, name⟩, c₂, ?_, by rw [ImportSymbol.pair, hn], h⟩
    rw [importSymbol, reading_bind_of_ok hname, reading_bind_of_ok hword]
    rfl
  | renamed n g =>
    obtain ⟨name, c₁, hname, hn, h⟩ := identifier_word hc h
    have hc₁ := hc.reaches (within_identifier hc hname).1
    obtain ⟨c₂, hword, h⟩ := eatWord_word h
    obtain ⟨given, c₃, hgiven, hg, h⟩ := identifier_word (hc₁.reaches (reaches_eatWord hword)) h
    refine ⟨⟨name, given⟩, c₃, ?_, by rw [ImportSymbol.pair, hn, hg], h⟩
    rw [importSymbol, reading_bind_of_ok hname, reading_bind_of_ok hword, if_pos rfl,
      reading_bind_of_ok hgiven]
    rfl

/-- An item does not begin with a mark. -/
theorem eat_item {m : Char} (hm : m ∈ marks) (hitem : ImportItem xs v)
    (h : Spells (xs ++ ys) c.rest) :
    ∃ c', eat m c = .ok (false, c') ∧ Spells (xs ++ ys) c'.rest := by
  obtain ⟨name, zs, rfl⟩ := hitem.exists_word
  exact eat_other hm (by simp) h

theorem importSymbols_derived {fuel : Nat} (hc : c.In s.text) (hitems : ImportItems xs vs)
    (hfuel : vs.length ≤ fuel) (h : Spells (xs ++ .mark '\x7d' :: ys) c.rest) :
    ∃ symbols c', importSymbols s (fuel + 1) c = .ok (symbols, c') ∧ symbols.map (·.pair) = vs ∧
      Spells ys c'.rest := by
  -- on the derivation, one item of which is read in each pass
  induction hitems generalizing fuel c with
  | nil =>
    obtain ⟨c', hclosed, h⟩ := eat_mark h
    refine ⟨[], c', ?_, rfl, h⟩
    rw [importSymbols, reading_bind_of_ok hclosed]
    rfl
  | last hitem =>
    obtain ⟨c₁, hclosed, h⟩ := eat_item (m := '\x7d') (by decide) hitem h
    obtain ⟨x, c₂, hx, hpair, h⟩ := importSymbol_derived (hc.reaches (reaches_eat hclosed)) hitem h
    have hmark : (.mark '\x7d' : Lexeme) ≠ .mark ',' := by decide
    obtain ⟨c₃, hmore, h⟩ := eat_other (by decide) hmark h
    obtain ⟨c₄, hend, h⟩ := expect_mark h
    refine ⟨[x], c₄, ?_, by rw [List.map_singleton, hpair], h⟩
    rw [importSymbols, reading_bind_of_ok hclosed, if_neg Bool.false_ne_true, reading_bind_of_ok hx,
      reading_bind_of_ok hmore, if_neg Bool.false_ne_true, reading_bind_of_ok hend]
    rfl
  | @cons xs ys' v vs hitem hitems ih =>
    obtain ⟨fuel, rfl⟩ := Nat.exists_eq_add_of_lt hfuel
    rw [List.append_assoc, List.cons_append] at h
    obtain ⟨c₁, hclosed, h⟩ := eat_item (m := '\x7d') (by decide) hitem h
    have hc₁ := hc.reaches (reaches_eat hclosed)
    obtain ⟨x, c₂, hx, hpair, h⟩ := importSymbol_derived hc₁ hitem h
    have hc₂ := hc₁.reaches (within_importSymbol hc₁ hx).1
    obtain ⟨c₃, hmore, h⟩ := eat_mark h
    obtain ⟨symbols, c₄, hsymbols, hpairs, h⟩ :=
      ih (hc₂.reaches (reaches_eat hmore)) (Nat.le_add_right vs.length fuel) h
    refine ⟨x :: symbols, c₄, ?_, by rw [List.map_cons, hpair, hpairs], h⟩
    rw [importSymbols, reading_bind_of_ok hclosed, if_neg Bool.false_ne_true, reading_bind_of_ok hx,
      reading_bind_of_ok hmore, if_pos rfl, reading_bind_of_ok hsymbols]
    rfl

theorem ImportItems.length_le (h : ImportItems xs vs) : vs.length ≤ xs.length := by
  induction h with
  | nil => exact Nat.le_refl _
  | last hitem =>
    obtain ⟨name, ys, rfl⟩ := hitem.exists_word
    exact Nat.succ_le_succ (Nat.zero_le _)
  | cons hitem hitems ih =>
    rw [List.length_append, List.length_cons, List.length_cons]
    omega

theorem importList_derived (hc : c.In s.text) (hlist : ImportList xs vs)
    (h : Spells (xs ++ ys) c.rest) :
    ∃ symbols c', importList s c = .ok (symbols, c') ∧ symbols.map (·.pair) = vs ∧
      Spells ys c'.rest := by
  cases hlist with
  | @braces xs vs hitems =>
    rw [List.cons_append, List.append_assoc] at h
    obtain ⟨c₁, hopen, h⟩ := expect_mark h
    have hfuel : vs.length ≤ c₁.rest.length := by
      have hle := h.length_le
      rw [List.length_append] at hle
      exact Nat.le_trans (Nat.le_trans hitems.length_le (Nat.le_add_right _ _)) hle
    obtain ⟨symbols, c₂, hsymbols, hpairs, h⟩ :=
      importSymbols_derived (hc.reaches (reaches_expect hopen)) hitems hfuel h
    refine ⟨symbols, c₂, ?_, hpairs, h⟩
    rw [importList, reading_bind_of_ok hopen, get_bind, hsymbols]

/-- A clause that begins with a name gives it to the default, and may go on with a list. -/
theorem importClause_of_word {g : List Char} (hc : c.In s.text)
    (h : Spells (.word g :: ys) c.rest) :
    ∃ given c₁, given.value = .ofList g ∧ c₁.In s.text ∧ Spells ys c₁.rest ∧
      importClause s c = (eat ',' >>= fun more => if more then
          importList s >>= fun rest => pure (⟨⟨"default", given.location⟩, given⟩ :: rest)
        else pure [⟨⟨"default", given.location⟩, given⟩]) c₁ := by
  have hc₀ := hc.reaches (c.reaches_skipWhile isBlank)
  obtain ⟨given, c₁, hgiven, hg, hys⟩ := identifier_word hc₀ (spells_skipWhile_iff.mpr h)
  refine ⟨given, c₁, hg, hc₀.reaches (within_identifier hc₀ hgiven).1, hys, ?_⟩
  obtain ⟨u, t, hrest, hu, -⟩ := exists_of_spells h
  cases hu with
  | word hname =>
    obtain ⟨x, g, rfl, hx, -⟩ := hname
    have hhead : (c.skipWhile isBlank).rest.head? = some x := by
      rw [hrest]
      rfl
    rw [importClause, skipBlanks_bind, get_bind]
    generalize (c.skipWhile isBlank).rest.head? = o at hhead
    -- neither the star nor the brace begins a name
    split
    · cases hhead
      exact absurd hx (by decide)
    · cases hhead
      exact absurd hx (by decide)
    · rw [reading_bind_of_ok hgiven]

theorem importClause_derived (hc : c.In s.text) (hclause : ImportClause xs vs)
    (h : Spells (xs ++ .word "from".toList :: ys) c.rest) :
    ∃ symbols c', importClause s c = .ok (symbols, c') ∧ symbols.map (·.pair) = vs ∧
      Spells (.word "from".toList :: ys) c'.rest := by
  have hskip := c.reaches_skipWhile isBlank
  cases hclause with
  | everything g =>
    obtain ⟨hhead, h⟩ := spells_behind_mark h
    have hstar := Cursor.reads_head hhead
    obtain ⟨c₁, hword, h⟩ := expectWord_word h
    have hreach := hskip.trans (hstar.reaches.trans (reaches_expectWord hword))
    obtain ⟨given, c₂, hgiven, hg, h⟩ := identifier_word (hc.reaches hreach) h
    have hname : (s.ident (c.skipWhile isBlank).pos ((c.skipWhile isBlank).pos + 1)).value = "*" :=
      hstar.pos ▸ value_ident (hc.reaches hskip) hstar
    refine ⟨[⟨s.ident (c.skipWhile isBlank).pos ((c.skipWhile isBlank).pos + 1), given⟩],
      c₂, ?_, ?_, h⟩
    · rw [importClause, skipBlanks_bind, get_bind, hhead]
      change (expectWord "as" >>= fun _ => _) ((c.skipWhile isBlank).drop 1) = _
      rw [reading_bind_of_ok hword, reading_bind_of_ok hgiven]
      rfl
    · rw [List.map_singleton, ImportSymbol.pair, hname, hg]
  | list hlist =>
    have hhead : (c.skipWhile isBlank).rest.head? = some '\x7b' := by
      cases hlist
      exact (spells_behind_mark h).1
    obtain ⟨symbols, c', hsymbols, hpairs, h⟩ :=
      importList_derived (hc.reaches hskip) hlist (spells_skipWhile_iff.mpr h)
    refine ⟨symbols, c', ?_, hpairs, h⟩
    rw [importClause, skipBlanks_bind, get_bind, hhead]
    exact hsymbols
  | default g =>
    obtain ⟨given, c₁, hg, -, h, hclause⟩ := importClause_of_word hc h
    have hmark : (.word "from".toList : Lexeme) ≠ .mark ',' := by decide
    obtain ⟨c₂, hmore, h⟩ := eat_other (by decide) hmark h
    refine ⟨[⟨⟨"default", given.location⟩, given⟩], c₂, ?_, ?_, h⟩
    · rw [hclause, reading_bind_of_ok hmore]
      rfl
    · rw [List.map_singleton, ImportSymbol.pair, hg]
  | both g hlist =>
    obtain ⟨given, c₁, hg, hc₁, h, hclause⟩ := importClause_of_word hc h
    obtain ⟨c₂, hmore, h⟩ := eat_mark h
    obtain ⟨symbols, c₃, hsymbols, hpairs, h⟩ :=
      importList_derived (hc₁.reaches (reaches_eat hmore)) hlist h
    refine ⟨⟨⟨"default", given.location⟩, given⟩ :: symbols, c₃, ?_, ?_, h⟩
    · rw [hclause, reading_bind_of_ok hmore, if_pos rfl, reading_bind_of_ok hsymbols]
      rfl
    · rw [List.map_cons, ImportSymbol.pair, hg, hpairs]

theorem importDirective_derived (hc : c.In s.text) (location : Location) {path : String}
    (h : DerivesImport c.rest vs path) :
    ∃ i c', importDirective s location c = .ok (.imports i, c') ∧ i.symbols.map (·.pair) = vs ∧
      i.path.value = path := by
  obtain ⟨xs, hclause, h⟩ := h
  obtain ⟨symbols, c₁, hsymbols, hpairs, h⟩ := importClause_derived hc hclause h
  have hc₁ := hc.reaches (within_importClause hc hsymbols).1
  obtain ⟨c₂, hword, h⟩ := expectWord_word h
  obtain ⟨p, c₃, hpath, hp, h⟩ := quotedString_quoted (hc₁.reaches (reaches_expectWord hword)) h
  obtain ⟨c₄, hend⟩ := finished_nil h
  refine ⟨⟨location, symbols, p⟩, c₄, ?_, hpairs, by rw [hp, String.ofList_toList]⟩
  rw [importDirective, reading_bind_of_ok hsymbols, reading_bind_of_ok hword,
    reading_bind_of_ok hpath, reading_bind_of_ok hend]
  rfl

/-! ### The comment of an import -/

theorem comment_import {whole : Location} {body : Cursor} {t : List Char}
    (hbody : body.rest = "ko-import".toList ++ t) (ht : Stops (!isBlank ·) t) :
    comment s whole body =
      ((importDirective s (s.location body.pos body.stop)).run'
        (body.drop "ko-import".toList.length)).map fun d => some (.directive d) := by
  have hclose : closesVirtual body.rest = false := by
    rw [hbody]
    rfl
  have hword : body.rest.takeWhile (!isBlank ·) = "ko-import".toList := by
    rw [hbody]
    exact takeWhile_append_of_stops (List.all_eq_true.mp (by decide)) ht
  unfold comment
  rw [hclose, if_neg Bool.false_ne_true, hword]
  rfl

end Markup

open Markup

/-- **The comment of an import is read if and only if its text is derived**, and then as the symbols
and the path that it is derived as.  Otherwise there is an error, and nothing else. -/
theorem import_read_iff_derived (file : String) (options : Options) {t : List Char}
    (ht : ¬ "-->".toList <:+: t) :
    (∀ symbols path,
      (∃ i dialect, tokenize file (directiveComment "ko-import" t) options =
          .ok ⟨[.directive (.imports i)], dialect⟩ ∧
        i.symbols.map (·.pair) = symbols ∧ i.path.value = path) ↔ DerivesImport t symbols path) ∧
    ((¬ ∃ symbols path, DerivesImport t symbols path) →
      ∃ d, tokenize file (directiveComment "ko-import" t) options = .error d ∧
        d.code = "KO0014") := by
  have hword : "ko-import".toList ≠ [] := by decide
  obtain ⟨s, location, c, hin, hrest, htokenize⟩ :=
    tokenize_directive hword (by decide) comment_import ht file options
  have hderives : ∀ {symbols path},
      DerivesImport c.rest symbols path ↔ DerivesImport t symbols path := by
    intro symbols path
    simp only [DerivesImport, hrest, spells_trimEnd_iff]
  have hread : ∀ {symbols path}, DerivesImport t symbols path →
      ∃ i c', importDirective s location c = .ok (.imports i, c') ∧
        i.symbols.map (·.pair) = symbols ∧ i.path.value = path :=
    fun h => importDirective_derived hin location (hderives.mpr h)
  refine ⟨fun symbols path => ⟨?_, ?_⟩, ?_⟩
  · rintro ⟨i, dialect, htokens, rfl, rfl⟩
    rw [htokenize] at htokens
    split at htokens
    · cases htokens
    · next d c' hok =>
      obtain ⟨i', rfl, hi⟩ := derives_of_importDirective hin hok
      cases htokens
      exact hderives.mp hi
  · intro h
    obtain ⟨i, c', hok, hsymbols, hpath⟩ := hread h
    rw [hok] at htokenize
    exact ⟨i, s.dialect, htokenize, hsymbols, hpath⟩
  · intro hnone
    cases hok : importDirective s location c with
    | error f =>
      rw [hok] at htokenize
      exact ⟨_, htokenize, rfl⟩
    | ok y =>
      obtain ⟨i, -, hi⟩ := derives_of_importDirective hin hok
      exact absurd ⟨_, _, hderives.mp hi⟩ hnone

/-- Both words of the grammar are names too, and a comma may stand behind the last item. -/
theorem import_read_iff_derived_words :
    let t := "\x7bas as from,\x7dfrom 'm'".toList
    ¬ "-->".toList <:+: t ∧
      ∃ i dialect, tokenize "view.html" (directiveComment "ko-import" t) ⟨["data-bind"], false⟩ =
          .ok ⟨[.directive (.imports i)], dialect⟩ ∧
        i.symbols.map (·.pair) = [("as", "from")] ∧ i.path.value = "m" := by
  intro t
  have ht : ¬ "-->".toList <:+: t := by decide
  have has : IsName "as".toList := ⟨'a', ['s'], rfl, by decide, List.all_eq_true.mp (by decide)⟩
  have hfrom : IsName "from".toList :=
    ⟨'f', ['r', 'o', 'm'], rfl, by decide, List.all_eq_true.mp (by decide)⟩
  have hnone : ∀ y ∈ ([] : List Char), isBlank y = true := List.forall_mem_nil _
  have hspace : ∀ y ∈ [' '], isBlank y = true := List.all_eq_true.mp (by decide)
  have hclause := ImportClause.list (.braces (.cons (.renamed "as".toList "from".toList) .nil))
  obtain ⟨hiff, -⟩ := import_read_iff_derived "view.html" ⟨["data-bind"], false⟩ ht
  refine ⟨ht, (hiff _ _).mpr ⟨_, hclause, ?_⟩⟩
  change Spells _ ([] ++ (['\x7b'] ++ ([] ++ ("as".toList ++ ([' '] ++ ("as".toList ++ ([' '] ++
    ("from".toList ++ ([] ++ ([','] ++ ([] ++ (['\x7d'] ++ ([] ++ ("from".toList ++ ([' '] ++
      (('\x27' :: (['m'] ++ ['\x27'])) ++ []))))))))))))))))
  refine .cons hnone (.mark (by decide)) trivial ?_
  refine .cons hnone (.word has) (stops_cons.mpr (by decide)) ?_
  refine .cons hspace (.word has) (stops_cons.mpr (by decide)) ?_
  refine .cons hspace (.word hfrom) (stops_cons.mpr (by decide)) ?_
  refine .cons hnone (.mark (by decide)) trivial ?_
  refine .cons hnone (.mark (by decide)) trivial ?_
  refine .cons hnone (.word hfrom) (stops_cons.mpr (by decide)) ?_
  exact .cons hspace (.quoted (.inr rfl) (by decide)) trivial (.nil hnone)

end ViewLint
