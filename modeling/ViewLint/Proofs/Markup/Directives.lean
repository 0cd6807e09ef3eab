import ViewLint.Markup.Directive
import ViewLint.Proofs.Except
import ViewLint.Proofs.Markup.Cursors

/-!
# Names in directives

A directive is read from left to right, and each of its names is a stretch of the view between the
place where reading begins and the place where it ends.  What a step reads says so for the names in
its answer; steps one after the other say it for all of them.

## Main definitions

* `Ident.Within` — a name is a stretch of a text between two places.
* `Directive.names` — the names that are written in a directive.

## Main results

* `Markup.reading_bind_eq_ok` — two steps, one after the other.
* `Markup.within_importDirective`, `Markup.within_typeReference` — the names of a directive.
-/

namespace ViewLint

open Text

/-- A name is a stretch of a text, between two places. -/
def Ident.Within (t : List Char) (first last : Nat) (i : Ident) : Prop :=
  ∃ k l, first ≤ k ∧ l ≤ last ∧ Stands t i.value i.location k l

theorem Ident.Within.mono {t : List Char} {first first' last last' : Nat} {i : Ident}
    (h : i.Within t first' last') (hfirst : first ≤ first') (hlast : last' ≤ last) :
    i.Within t first last := by
  obtain ⟨k, l, hk, hl, hstands⟩ := h
  exact ⟨k, l, Nat.le_trans hfirst hk, Nat.le_trans hl hlast, hstands⟩

/-- The names that are written for a symbol.  What a module exports by default has no name but the
one that it is given. -/
def ImportSymbol.names (x : ImportSymbol) : List Ident :=
  if x.name = ⟨"default", x.given.location⟩ then [x.given] else [x.name, x.given]

/-- The names that are written in a directive. -/
def Directive.names : Directive → List Ident
  | .imports content => content.symbols.flatMap (·.names) ++ [content.path]
  | .viewmodel _ type => [type.name]
  | .context _ type => [type.name]
  | .lint _ _ _ => []

namespace Markup

variable {s : Source} {c c' : Cursor}

/-! ### Steps -/

/-- Two steps read if the first one does, and the second one where the first one ends. -/
theorem reading_bind_eq_ok {α β : Type} {f : Reading α} {g : α → Reading β} {y : β × Cursor}
    (h : (f >>= g) c = .ok y) : ∃ x c₁, f c = .ok (x, c₁) ∧ g x c₁ = .ok y := by
  obtain ⟨⟨x, c₁⟩, hx, hy⟩ := Except.bind_eq_ok.mp h
  exact ⟨x, c₁, hx, hy⟩

theorem skipBlanks_bind {α : Type} (f : Unit → Reading α) (c : Cursor) :
    (skipBlanks >>= f) c = f () (c.skipWhile isBlank) := rfl

theorem get_bind {α : Type} (f : Cursor → Reading α) (c : Cursor) :
    ((get : Reading Cursor) >>= f) c = f c c := rfl

theorem stopDirective_ne_ok {α : Type} (expected : Expected) (c : Cursor) (y : α × Cursor) :
    stopDirective expected c ≠ .ok y := fun h => nomatch h

theorem stands_ident (s : Source) {i j : Nat} (h : i ≤ j) (hj : j ≤ s.text.length) :
    Stands s.text (s.ident i j).value (s.ident i j).location i j :=
  ⟨h, hj, congrArg String.ofList (s.index.slice_eq i j), s.index.location_eq i j⟩

/-- A name between two places of a cursor. -/
theorem within_ident {c₁ c₂ : Cursor} (hc : c.In s.text) (h₁ : c.Reaches c₁) (h : c₁.Reaches c₂)
    (h₂ : c₂.Reaches c') : (s.ident c₁.pos c₂.pos).Within s.text c.pos c'.pos := by
  have hle : c₂.pos ≤ c₂.stop := Nat.le_add_right _ _
  have hstop := (hc.reaches (h₁.trans h)).stop_le
  exact ⟨c₁.pos, c₂.pos, h₁.pos_le, h₂.pos_le, stands_ident s h.pos_le (Nat.le_trans hle hstop)⟩

/-! ### Words and marks -/

theorem reaches_eat {mark : Char} {b : Bool} (h : eat mark c = .ok (b, c')) : c.Reaches c' := by
  have hskip := c.reaches_skipWhile isBlank
  rw [eat, skipBlanks_bind, get_bind] at h
  split at h
  · cases h
    exact hskip.trans (Cursor.reaches_drop _ 1)
  · cases h
    exact hskip

theorem reaches_expect {mark : Char} {u : Unit} (h : expect mark c = .ok (u, c')) :
    c.Reaches c' := by
  obtain ⟨b, c₁, heat, h⟩ := reading_bind_eq_ok h
  cases b with
  | true =>
    cases h
    exact reaches_eat heat
  | false => exact absurd h (stopDirective_ne_ok _ _ _)

theorem reaches_eatWord {word : String} {b : Bool} (h : eatWord word c = .ok (b, c')) :
    c.Reaches c' := by
  have hskip := c.reaches_skipWhile isBlank
  rw [eatWord, skipBlanks_bind, get_bind] at h
  split at h
  · cases h
    exact hskip.trans (Cursor.reaches_drop _ _)
  · cases h
    exact hskip

theorem reaches_expectWord {word : String} {u : Unit} (h : expectWord word c = .ok (u, c')) :
    c.Reaches c' := by
  obtain ⟨b, c₁, heat, h⟩ := reading_bind_eq_ok h
  cases b with
  | true =>
    cases h
    exact reaches_eatWord heat
  | false => exact absurd h (stopDirective_ne_ok _ _ _)

theorem reaches_finished {u : Unit} (h : finished c = .ok (u, c')) : c.Reaches c' := by
  rw [finished, skipBlanks_bind, get_bind] at h
  split at h
  · exact absurd h (stopDirective_ne_ok _ _ _)
  · cases h
    exact c.reaches_skipWhile isBlank

/-! ### Names and paths -/

theorem prefix_leadingName (t : List Char) : leadingName t <+: t := by
  cases t with
  | nil => exact List.nil_prefix
  | cons x t =>
    rw [leadingName]
    split
    · exact (List.prefix_cons_inj x).mpr (List.takeWhile_prefix _)
    · exact List.nil_prefix

/-- A name begins behind the blanks ahead, and is what has been read since. -/
theorem within_identifier (hc : c.In s.text) {i : Ident} (h : identifier s c = .ok (i, c')) :
    c.Reaches c' ∧ i.Within s.text c.pos c'.pos := by
  have hskip := c.reaches_skipWhile isBlank
  rw [identifier, skipBlanks_bind, get_bind] at h
  have hprefix := prefix_leadingName (c.skipWhile isBlank).rest
  cases hname : leadingName (c.skipWhile isBlank).rest with
  | nil =>
    rw [hname] at h
    exact absurd h (stopDirective_ne_ok _ _ _)
  | cons x name =>
    rw [hname] at h hprefix
    cases h
    have hread := Cursor.reads_of_prefix hprefix
    refine ⟨hskip.trans hread.reaches, ?_⟩
    rw [← hread.pos]
    exact within_ident hc hskip hread.reaches (.refl _)

/-- A text in quotes begins behind the blanks ahead, and ends at the first quote of the same
kind. -/
theorem exists_of_quotedString {i : Ident} (h : quotedString s c = .ok (i, c')) :
    ∃ quote rest n, (c.skipWhile isBlank).rest = quote :: rest ∧
      (quote = '\x22' ∨ quote = '\x27') ∧ indexOf? [quote] rest = some n ∧
      c' = (c.skipWhile isBlank).drop (n + 2) ∧
      i = s.ident ((c.skipWhile isBlank).pos + 1) ((c.skipWhile isBlank).pos + 1 + n) := by
  rw [quotedString, skipBlanks_bind, get_bind] at h
  cases hrest : (c.skipWhile isBlank).rest with
  | nil =>
    rw [hrest] at h
    exact absurd h (stopDirective_ne_ok _ _ _)
  | cons quote rest =>
    rw [hrest] at h
    dsimp only at h
    split at h
    · next hquote =>
      cases hn : indexOf? [quote] rest with
      | none =>
        rw [hn] at h
        exact absurd h (stopDirective_ne_ok _ _ _)
      | some n =>
        rw [hn] at h
        cases h
        exact ⟨quote, rest, n, rfl, hquote, hn, rfl, rfl⟩
    · exact absurd h (stopDirective_ne_ok _ _ _)

/-- The text between quotes. -/
theorem within_quotedString (hc : c.In s.text) {i : Ident} (h : quotedString s c = .ok (i, c')) :
    c.Reaches c' ∧ i.Within s.text c.pos c'.pos := by
  have hskip := c.reaches_skipWhile isBlank
  obtain ⟨quote, rest, n, hrest, -, hn, rfl, rfl⟩ := exists_of_quotedString h
  obtain ⟨c₁, c₂, h₁, h₂, hlast, hpos₁, hpos₂⟩ := Cursor.exists_quoted hrest hn
  refine ⟨((hskip.trans h₁).trans h₂).trans hlast, ?_⟩
  rw [← hpos₂, ← hpos₁]
  exact within_ident hc (hskip.trans h₁) h₂ hlast

/-! ### Imports -/

/-- All names of some symbols stand between two places. -/
def SymbolsWithin (t : List Char) (first last : Nat) (xs : List ImportSymbol) : Prop :=
  ∀ i ∈ xs.flatMap (·.names), i.Within t first last

theorem SymbolsWithin.mono {t : List Char} {first first' last last' : Nat} {xs : List ImportSymbol}
    (h : SymbolsWithin t first' last' xs) (hfirst : first ≤ first') (hlast : last' ≤ last) :
    SymbolsWithin t first last xs :=
  fun i hi => (h i hi).mono hfirst hlast

theorem symbolsWithin_cons {t : List Char} {first last : Nat} {x : ImportSymbol}
    {xs : List ImportSymbol} (hx : ∀ i ∈ x.names, i.Within t first last)
    (h : SymbolsWithin t first last xs) : SymbolsWithin t first last (x :: xs) := by
  intro i hi
  rw [List.flatMap_cons, List.mem_append] at hi
  exact hi.elim (hx i) (h i)

/-- The names of a symbol are both written, if its name is no default. -/
theorem within_of_mem_names {t : List Char} {first last : Nat} {x : ImportSymbol}
    (hname : x.name.Within t first last) (hgiven : x.given.Within t first last) :
    ∀ i ∈ x.names, i.Within t first last := by
  intro i hi
  unfold ImportSymbol.names at hi
  split at hi
  · rw [List.mem_singleton.mp hi]
    exact hgiven
  · rcases List.mem_cons.mp hi with rfl | hi
    · exact hname
    · rw [List.mem_singleton.mp hi]
      exact hgiven

theorem within_importSymbol (hc : c.In s.text) {x : ImportSymbol}
    (h : importSymbol s c = .ok (x, c')) :
    c.Reaches c' ∧ ∀ i ∈ x.names, i.Within s.text c.pos c'.pos := by
  obtain ⟨name, c₁, hname, h⟩ := reading_bind_eq_ok h
  obtain ⟨hreach₁, hname⟩ := within_identifier hc hname
  obtain ⟨b, c₂, hword, h⟩ := reading_bind_eq_ok h
  have hreach₂ := hreach₁.trans (reaches_eatWord hword)
  cases b with
  | true =>
    -- the name that it is given stands behind the word
    obtain ⟨given, c₃, hgiven, h⟩ := reading_bind_eq_ok h
    obtain ⟨hreach₃, hgiven⟩ := within_identifier (hc.reaches hreach₂) hgiven
    cases h
    have hname := hname.mono (Nat.le_refl _) ((reaches_eatWord hword).trans hreach₃).pos_le
    have hgiven := hgiven.mono hreach₂.pos_le (Nat.le_refl _)
    exact ⟨hreach₂.trans hreach₃, within_of_mem_names hname hgiven⟩
  | false =>
    cases h
    have hname := hname.mono (Nat.le_refl _) (reaches_eatWord hword).pos_le
    exact ⟨hreach₂, within_of_mem_names hname hname⟩

/-- The symbols of a list are read one after the other. -/
theorem within_importSymbols (fuel : Nat) (hc : c.In s.text) {xs : List ImportSymbol}
    (h : importSymbols s fuel c = .ok (xs, c')) :
    c.Reaches c' ∧ SymbolsWithin s.text c.pos c'.pos xs := by
  induction fuel generalizing c c' xs with
  | zero =>
    cases h
    exact ⟨.refl _, fun i hi => nomatch hi⟩
  | succ fuel ih =>
    obtain ⟨closed, c₁, hclosed, h⟩ := reading_bind_eq_ok h
    have hreach₁ := reaches_eat hclosed
    cases closed with
    | true =>
      cases h
      exact ⟨hreach₁, fun i hi => nomatch hi⟩
    | false =>
      obtain ⟨x, c₂, hx, h⟩ := reading_bind_eq_ok h
      obtain ⟨hreach₂, hx⟩ := within_importSymbol (hc.reaches hreach₁) hx
      obtain ⟨more, c₃, hmore, h⟩ := reading_bind_eq_ok h
      have hreach₃ := (hreach₁.trans hreach₂).trans (reaches_eat hmore)
      -- the first symbol, whatever comes behind it
      have hfirst : c₃.Reaches c' → ∀ i ∈ x.names, i.Within s.text c.pos c'.pos := fun hlast i hi =>
        (hx i hi).mono hreach₁.pos_le ((reaches_eat hmore).trans hlast).pos_le
      cases more with
      | true =>
        obtain ⟨rest, c₄, hrest, h⟩ := reading_bind_eq_ok h
        obtain ⟨hreach₄, hrest⟩ := ih (hc.reaches hreach₃) hrest
        cases h
        exact ⟨hreach₃.trans hreach₄,
          symbolsWithin_cons (hfirst hreach₄) (hrest.mono hreach₃.pos_le (Nat.le_refl _))⟩
      | false =>
        obtain ⟨u, c₄, hend, h⟩ := reading_bind_eq_ok h
        cases h
        have hreach₄ := reaches_expect hend
        exact ⟨hreach₃.trans hreach₄,
          symbolsWithin_cons (hfirst hreach₄) fun i hi => nomatch hi⟩

theorem within_importList (hc : c.In s.text) {xs : List ImportSymbol}
    (h : importList s c = .ok (xs, c')) :
    c.Reaches c' ∧ SymbolsWithin s.text c.pos c'.pos xs := by
  obtain ⟨u, c₁, hopen, h⟩ := reading_bind_eq_ok h
  rw [get_bind] at h
  have hreach := reaches_expect hopen
  obtain ⟨hreach', hxs⟩ := within_importSymbols _ (hc.reaches hreach) h
  exact ⟨hreach.trans hreach', hxs.mono hreach.pos_le (Nat.le_refl _)⟩

/-- What is taken from a module: everything, a list, or the default with perhaps a list. -/
theorem within_importClause (hc : c.In s.text) {xs : List ImportSymbol}
    (h : importClause s c = .ok (xs, c')) :
    c.Reaches c' ∧ SymbolsWithin s.text c.pos c'.pos xs := by
  have hskip := c.reaches_skipWhile isBlank
  rw [importClause, skipBlanks_bind, get_bind] at h
  generalize hhead : (c.skipWhile isBlank).rest.head? = o at h
  revert h
  split
  · intro h
    -- the star is the name of everything
    obtain ⟨u, c₁, hset, h⟩ := reading_bind_eq_ok h
    cases hset
    have hstar := Cursor.reads_head hhead
    obtain ⟨u, c₂, hword, h⟩ := reading_bind_eq_ok h
    have hreach₂ := hskip.trans (hstar.reaches.trans (reaches_expectWord hword))
    obtain ⟨given, c₃, hgiven, h⟩ := reading_bind_eq_ok h
    obtain ⟨hreach₃, hgiven⟩ := within_identifier (hc.reaches hreach₂) hgiven
    cases h
    have hname := within_ident hc hskip hstar.reaches ((reaches_expectWord hword).trans hreach₃)
    rw [hstar.pos] at hname
    have hgiven := hgiven.mono hreach₂.pos_le (Nat.le_refl _)
    exact ⟨hreach₂.trans hreach₃,
      symbolsWithin_cons (within_of_mem_names hname hgiven) fun i hi => nomatch hi⟩
  · intro h
    obtain ⟨hreach, hxs⟩ := within_importList (hc.reaches hskip) h
    exact ⟨hskip.trans hreach, hxs.mono hskip.pos_le (Nat.le_refl _)⟩
  · intro h
    obtain ⟨given, c₁, hgiven, h⟩ := reading_bind_eq_ok h
    obtain ⟨hreach₁, hgiven⟩ := within_identifier (hc.reaches hskip) hgiven
    obtain ⟨more, c₂, hmore, h⟩ := reading_bind_eq_ok h
    have hreach₂ := hreach₁.trans (reaches_eat hmore)
    -- the default has no name of its own
    have hdefault : ∀ {c''}, c₂.Reaches c'' →
        ∀ i ∈ ImportSymbol.names ⟨⟨"default", given.location⟩, given⟩,
          i.Within s.text c.pos c''.pos := by
      intro c'' hlast i hi
      rw [ImportSymbol.names, if_pos rfl] at hi
      rw [List.mem_singleton.mp hi]
      exact hgiven.mono hskip.pos_le ((reaches_eat hmore).trans hlast).pos_le
    cases more with
    | true =>
      obtain ⟨rest, c₃, hrest, h⟩ := reading_bind_eq_ok h
      have hreach₂ := hskip.trans hreach₂
      obtain ⟨hreach₃, hrest⟩ := within_importList (hc.reaches hreach₂) hrest
      cases h
      exact ⟨hreach₂.trans hreach₃,
        symbolsWithin_cons (hdefault hreach₃) (hrest.mono hreach₂.pos_le (Nat.le_refl _))⟩
    | false =>
      cases h
      exact ⟨hskip.trans hreach₂,
        symbolsWithin_cons (hdefault (.refl _)) fun i hi => nomatch hi⟩

/-- The names of an import. -/
theorem within_importDirective (hc : c.In s.text) {location : Location} {x : Directive}
    (h : importDirective s location c = .ok (x, c')) :
    x.location = location ∧ c.Reaches c' ∧ ∀ i ∈ x.names, i.Within s.text c.pos c'.pos := by
  obtain ⟨symbols, c₁, hsymbols, h⟩ := reading_bind_eq_ok h
  obtain ⟨hreach₁, hsymbols⟩ := within_importClause hc hsymbols
  obtain ⟨u, c₂, hword, h⟩ := reading_bind_eq_ok h
  have hreach₂ := hreach₁.trans (reaches_expectWord hword)
  obtain ⟨path, c₃, hpath, h⟩ := reading_bind_eq_ok h
  obtain ⟨hreach₃, hpath⟩ := within_quotedString (hc.reaches hreach₂) hpath
  obtain ⟨u, c₄, hend, h⟩ := reading_bind_eq_ok h
  have hreach₄ := reaches_finished hend
  cases h
  refine ⟨rfl, (hreach₂.trans hreach₃).trans hreach₄, ?_⟩
  intro i hi
  rcases List.mem_append.mp hi with hi | hi
  · exact (hsymbols i hi).mono (Nat.le_refl _)
      ((reaches_expectWord hword).trans (hreach₃.trans hreach₄)).pos_le
  · rw [List.mem_singleton.mp hi]
    exact hpath.mono hreach₂.pos_le hreach₄.pos_le

/-! ### Types -/

theorem reaches_pathRest (fuel : Nat) (hc : c.In s.text) {u : Unit}
    (h : pathRest s fuel c = .ok (u, c')) : c.Reaches c' := by
  induction fuel generalizing c with
  | zero =>
    cases h
    exact .refl _
  | succ fuel ih =>
    rw [pathRest, get_bind] at h
    split at h
    · obtain ⟨u, c₁, hset, h⟩ := reading_bind_eq_ok h
      cases hset
      have hdot := c.reaches_drop 1
      obtain ⟨name, c₂, hname, h⟩ := reading_bind_eq_ok h
      have hreach := hdot.trans (within_identifier (hc.reaches hdot) hname).1
      exact hreach.trans (ih (hc.reaches hreach) h)
    · cases h
      exact .refl _

theorem reaches_typeArguments {u : Unit} (h : typeArguments c = .ok (u, c')) : c.Reaches c' := by
  rw [typeArguments, get_bind] at h
  split at h
  · cases hclose : closeAngle? 0 c.rest with
    | some n =>
      rw [hclose] at h
      cases h
      exact c.reaches_drop _
    | none =>
      rw [hclose] at h
      exact absurd h (stopDirective_ne_ok _ _ _)
  · cases h
    exact .refl _

/-- The name of a type, with its path and its arguments. -/
theorem within_typeReference (hc : c.In s.text) {x : TypeReference}
    (h : typeReference s c = .ok (x, c')) :
    c.Reaches c' ∧ x.name.Within s.text c.pos c'.pos := by
  obtain ⟨b, c₁, hword, h⟩ := reading_bind_eq_ok h
  dsimp only at h
  rw [skipBlanks_bind, get_bind] at h
  have hreach₁ := (reaches_eatWord hword).trans (c₁.reaches_skipWhile isBlank)
  obtain ⟨first, c₂, hfirst, h⟩ := reading_bind_eq_ok h
  have hreach₂ := (within_identifier (hc.reaches hreach₁) hfirst).1
  rw [get_bind] at h
  obtain ⟨u, c₃, hpath, h⟩ := reading_bind_eq_ok h
  have hreach₃ := reaches_pathRest _ (hc.reaches (hreach₁.trans hreach₂)) hpath
  have hreach := hreach₂.trans hreach₃
  -- the name ends where its arguments do, if it has any
  have hlast : ∀ {c₄}, c₃.Reaches c₄ →
      (finished >>= fun _ => pure ⟨s.ident (c₁.skipWhile isBlank).pos c₄.pos, !b⟩) c₄ =
        .ok (x, c') →
        c.Reaches c' ∧ x.name.Within s.text c.pos c'.pos := by
    intro c₄ hreach₄ h
    obtain ⟨u, c₅, hend, h⟩ := reading_bind_eq_ok h
    have hreach₅ := reaches_finished hend
    cases h
    exact ⟨(hreach₁.trans (hreach.trans hreach₄)).trans hreach₅,
      within_ident hc hreach₁ (hreach.trans hreach₄) hreach₅⟩
  split at h
  · obtain ⟨u, c₄, harguments, h⟩ := reading_bind_eq_ok h
    exact hlast (reaches_typeArguments harguments) h
  · exact hlast (.refl _) h

end Markup

end ViewLint
