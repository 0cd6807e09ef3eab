import ViewLint.Proofs.Markup.Lexemes

/-!
# Type references are read back

A type reference is a path of names, and if it is a type, perhaps with arguments in angle brackets
behind the path.  The arguments are any text up to the bracket that closes the first one.  The
reference is kept as it is written, with the blanks in its path and in its arguments, and is written
as in code with the word `typeof` before it if it is a value.

When it is put into a comment of its own, only a blank stands behind it.  So the path does not go
on, the brackets close where they have closed before, and the reference that is read is the same
one.

## Main definitions

* `Markup.PathText` — how a path is written, and its names.
* `Markup.TypeText` — how a type reference is written.

## Main results

* `Markup.exists_of_typeReference` — what has been read is written like that.
* `Markup.typeReference_of_text` — what is written like that is read.
* `type_reference_reads_back` — **a type reference of a view is read back**, and its root is the
  first name of its path.
-/

namespace ViewLint

open Text

namespace Markup

variable {s : Source} {c c' : Cursor}

/-! ### Paths -/

/-- A path: names with points between them.  Blanks may stand behind a point. -/
inductive PathText : List (List Char) → List Char → Prop
  | one {n : List Char} : IsName n → PathText [n] n
  | more {n blanks t : List Char} {ns : List (List Char)} : IsName n →
      (∀ y ∈ blanks, isBlank y = true) → PathText ns t →
        PathText (n :: ns) (n ++ '.' :: (blanks ++ t))

/-- A character with which a path would go on. -/
def continuesPath (x : Char) : Bool := isNamePart x || x == '.'

section

variable {names : List (List Char)} {path t : List Char}

/-- A path begins with its first name. -/
theorem PathText.exists_name (h : PathText names path) :
    ∃ n ns t, names = n :: ns ∧ path = n ++ t ∧ IsName n ∧ (t = [] ∨ t.head? = some '.') := by
  cases h with
  | one hn => exact ⟨path, [], [], rfl, (List.append_nil path).symm, hn, .inl rfl⟩
  | @more n blanks t ns hn => exact ⟨n, ns, '.' :: (blanks ++ t), rfl, rfl, hn, .inr rfl⟩

/-- A path ends with its last name. -/
theorem PathText.exists_last (h : PathText names path) :
    ∃ u x, path = u ++ [x] ∧ isBlank x = false := by
  induction h with
  | one hn => exact (Lexeme.Spelled.word hn).exists_last
  | @more n blanks t ns hn hblanks ht ih =>
    obtain ⟨u, x, rfl, hx⟩ := ih
    exact ⟨n ++ '.' :: (blanks ++ u), x, by simp, hx⟩

theorem stops_isNamePart (h : Stops continuesPath t) : Stops isNamePart t := by
  intro x hx
  exact (Bool.or_eq_false_iff.mp (h x hx)).1

/-- Names are read as long as there are points behind them. -/
theorem exists_of_pathRest (fuel : Nat) (hc : c.In s.text) {i : Ident} {u : Unit} {c₁ : Cursor}
    (hname : identifier s c = .ok (i, c₁)) (hfuel : c₁.rest.length < fuel)
    (h : pathRest s fuel c₁ = .ok (u, c')) :
    ∃ names path, PathText names path ∧ (c.skipWhile isBlank).Reads path c' ∧
      Stops continuesPath c'.rest := by
  induction fuel generalizing c c₁ i with
  | zero => exact absurd hfuel (Nat.not_lt_zero _)
  | succ fuel ih =>
    have hc₁ := hc.reaches (within_identifier hc hname).1
    obtain ⟨n, hn, -, hread, hstops⟩ := exists_of_identifier hc hname
    rw [pathRest, get_bind] at h
    split at h
    · next hdot =>
      obtain ⟨u, c₂, hset, h⟩ := reading_bind_eq_ok h
      cases hset
      have hpoint := Cursor.reads_head hdot
      obtain ⟨next, c₃, hnext, h⟩ := reading_bind_eq_ok h
      have hless : c₃.rest.length < fuel := by
        obtain ⟨-, -, -, hless⟩ := takes_identifier (hc₁.reads hpoint) hnext
        have hle := hpoint.reaches.length_le
        omega
      -- what is behind the point is a path of its own
      obtain ⟨names, path, hpath, hreads, hend⟩ := ih (hc₁.reads hpoint) hnext hless h
      have hskip := (c₁.drop 1).reads_skipWhile isBlank
      have hblanks : ∀ y ∈ (c₁.drop 1).rest.takeWhile isBlank, isBlank y = true :=
        fun y hy => List.mem_takeWhile_imp hy
      refine ⟨n :: names, _, .more hn hblanks hpath, ?_, hend⟩
      exact hread.trans (hpoint.trans (hskip.trans hreads))
    · next hdot =>
      cases h
      refine ⟨[n], n, .one hn, hread, fun x hx => ?_⟩
      refine Bool.or_eq_false_iff.mpr ⟨hstops x hx, ?_⟩
      rw [beq_eq_false_iff_ne]
      rintro rfl
      exact hdot hx

theorem pathRest_of_path (hc : c.In s.text) (hpath : PathText names path)
    (hrest : (c.skipWhile isBlank).rest = path ++ t) (ht : Stops continuesPath t) :
    ∃ i c₁, identifier s c = .ok (i, c₁) ∧ ∀ fuel, c₁.rest.length < fuel →
      ∃ c', pathRest s fuel c₁ = .ok ((), c') ∧ (c.skipWhile isBlank).Reads path c' := by
  induction hpath generalizing c with
  | one hn =>
    obtain ⟨i, c₁, hname, -, hread⟩ := identifier_append hc hn (stops_isNamePart ht) hrest
    refine ⟨i, c₁, hname, fun fuel hfuel => ⟨c₁, ?_, hread⟩⟩
    obtain ⟨fuel, rfl⟩ := Nat.exists_eq_add_of_lt hfuel
    have hleft := List.append_cancel_left (hread.rest.symm.trans hrest)
    rw [pathRest, get_bind, if_neg]
    · rfl
    · intro hdot
      have hno := ht '.' (hleft ▸ hdot)
      exact absurd hno (by decide)
  | @more n blanks path' ns hn hblanks hpath ih =>
    rw [List.append_assoc, List.cons_append, List.append_assoc] at hrest
    obtain ⟨i, c₁, hname, -, hread⟩ := identifier_append hc hn (stops_cons.mpr (by decide)) hrest
    have hc₁ := hc.reaches (within_identifier hc hname).1
    have hrest₁ := List.append_cancel_left (hread.rest.symm.trans hrest)
    have hdot : c₁.rest.head? = some '.' := by
      rw [hrest₁]
      rfl
    have hpoint := Cursor.reads_head hdot
    have hrest₂ : (c₁.drop 1).rest = blanks ++ (path' ++ t) := by
      rw [Cursor.drop, hrest₁]
      rfl
    -- the next name begins behind the blanks
    have hbegins : Stops isBlank (path' ++ t) := by
      obtain ⟨m, ms, u, -, rfl, hm, -⟩ := hpath.exists_name
      rw [List.append_assoc]
      exact (Lexeme.Spelled.word hm).stops_isBlank _
    have hskip := (c₁.drop 1).reads_skipWhile isBlank
    rw [hrest₂, takeWhile_append_of_stops hblanks hbegins] at hskip
    have hrest₃ := List.append_cancel_left (hskip.rest.symm.trans hrest₂)
    obtain ⟨next, c₂, hnext, hmore⟩ := ih (hc₁.reads hpoint) hrest₃
    refine ⟨i, c₁, hname, fun fuel hfuel => ?_⟩
    obtain ⟨fuel, rfl⟩ := Nat.exists_eq_succ_of_ne_zero (Nat.ne_zero_of_lt hfuel)
    have hless : c₂.rest.length < fuel := by
      obtain ⟨-, -, -, hless⟩ := takes_identifier (hc₁.reads hpoint) hnext
      have hle := hpoint.reaches.length_le
      omega
    obtain ⟨c', hpathRest, hreads⟩ := hmore fuel hless
    refine ⟨c', ?_, hread.trans (hpoint.trans (hskip.trans hreads))⟩
    rw [pathRest, get_bind, if_pos hdot]
    change (identifier s >>= fun _ => pathRest s fuel) (c₁.drop 1) = _
    rw [reading_bind_of_ok hnext, hpathRest]

end

/-! ### Type arguments -/

/-- The bracket that closes a text, which is the same one whatever stands behind it. -/
theorem exists_of_closeAngle? {depth n : Nat} {t : List Char} (h : closeAngle? depth t = some n) :
    ∃ u v, t = u ++ '>' :: v ∧ n = u.length + 1 ∧
      ∀ w, closeAngle? depth (u ++ '>' :: w) = some n := by
  induction t generalizing depth n with
  | nil => cases h
  | cons x t ih =>
    -- the bracket is further on, at the depth behind the first character
    have hlater : ∀ depth', (∀ t, closeAngle? depth (x :: t) = (closeAngle? depth' t).map (· + 1)) →
        ∃ u v, x :: t = u ++ '>' :: v ∧ n = u.length + 1 ∧
          ∀ w, closeAngle? depth (u ++ '>' :: w) = some n := by
      intro depth' hstep
      rw [hstep] at h
      obtain ⟨m, hm, rfl⟩ := Option.map_eq_some_iff.mp h
      obtain ⟨u, v, rfl, rfl, hall⟩ := ih hm
      refine ⟨x :: u, v, rfl, rfl, fun w => ?_⟩
      rw [List.cons_append, hstep, hall]
      rfl
    by_cases hopen : x = '<'
    · exact hlater (depth + 1) fun t => by rw [closeAngle?, if_pos hopen]
    by_cases hclose : x = '>'
    · by_cases hdepth : depth ≤ 1
      · have hhere : ∀ t, closeAngle? depth (x :: t) = some 1 := fun t => by
          rw [closeAngle?, if_neg hopen, if_pos hclose, if_pos hdepth]
        rw [hhere] at h
        cases h
        exact ⟨[], t, by rw [hclose]; rfl, rfl, hclose ▸ hhere⟩
      · exact hlater (depth - 1) fun t => by
          rw [closeAngle?, if_neg hopen, if_pos hclose, if_neg hdepth]
    · exact hlater depth fun t => by rw [closeAngle?, if_neg hopen, if_neg hclose]

/-- Arguments in angle brackets: an opening bracket, and all up to the bracket that closes it. -/
structure Angles (t : List Char) : Prop where
  opens : t.head? = some '<'
  closes : closeAngle? 0 t = some t.length

theorem Angles.exists_last {t : List Char} (h : Angles t) : ∃ u, t = u ++ ['>'] := by
  obtain ⟨u, v, hsplit, hlength, -⟩ := exists_of_closeAngle? h.closes
  have hv : v = [] := by
    rw [hsplit, List.length_append, List.length_cons] at hlength
    exact List.length_eq_zero_iff.mp (by omega)
  exact ⟨u, hv ▸ hsplit⟩

theorem exists_of_typeArguments {u : Unit} (h : typeArguments c = .ok (u, c')) :
    ∃ arguments, c.Reads arguments c' ∧ (arguments = [] ∨ Angles arguments) := by
  rw [typeArguments, get_bind] at h
  split at h
  · next hopen =>
    cases hclose : closeAngle? 0 c.rest with
    | none =>
      rw [hclose] at h
      exact absurd h (stopDirective_ne_ok _ _ _)
    | some n =>
      rw [hclose] at h
      cases h
      obtain ⟨u, v, hsplit, hn, hall⟩ := exists_of_closeAngle? hclose
      have htake : c.rest.take n = u ++ ['>'] := by
        rw [hsplit, hn, ← List.singleton_append, ← List.append_assoc, List.take_left' (by simp)]
      refine ⟨u ++ ['>'], htake ▸ c.reads_drop n, .inr ⟨?_, ?_⟩⟩
      · rw [← htake, List.head?_take, if_neg (by omega), hopen]
      · rw [hall, List.length_append, hn]
        rfl
  · cases h
    exact ⟨[], .refl c, .inl rfl⟩

theorem typeArguments_of_text {arguments : List Char}
    (harguments : arguments = [] ∨ Angles arguments) (hrest : c.rest = arguments) :
    ∃ c', typeArguments c = .ok ((), c') ∧ c.Reads arguments c' := by
  rcases harguments with rfl | hangles
  · refine ⟨c, ?_, .refl c⟩
    rw [typeArguments, get_bind, hrest, if_neg (by decide)]
    rfl
  · have hread := Cursor.reads_of_prefix (c := c) (r := arguments) (hrest ▸ List.prefix_refl _)
    refine ⟨c.drop arguments.length, ?_, hread⟩
    rw [typeArguments, get_bind, hrest, if_pos hangles.opens, hangles.closes]
    rfl

/-! ### Type references -/

/-- How a type reference is written.  Only a type has arguments, and its path does not begin with
the word that stands before a value. -/
structure TypeText (isType : Bool) (names : List (List Char)) (path arguments : List Char) :
    Prop where
  path : PathText names path
  arguments : arguments = [] ∨ isType = true ∧ Angles arguments
  word : isType = true → names.head? ≠ some "typeof".toList

section

variable {isType : Bool} {names : List (List Char)} {path arguments : List Char}

theorem TypeText.exists_last (h : TypeText isType names path arguments) :
    ∃ u x, path ++ arguments = u ++ [x] ∧ isBlank x = false := by
  rcases h.arguments with rfl | ⟨-, hangles⟩
  · rw [List.append_nil]
    exact h.path.exists_last
  · obtain ⟨u, rfl⟩ := hangles.exists_last
    exact ⟨path ++ u, '>', (List.append_assoc _ _ _).symm, by decide⟩

/-- The path does not go on in the arguments. -/
theorem TypeText.stops_arguments (h : TypeText isType names path arguments) :
    Stops continuesPath arguments := by
  intro x hx
  rcases h.arguments with rfl | ⟨-, hangles⟩
  · cases hx
  · cases hangles.opens.symm.trans hx
    decide

/-- A type reference begins with the first name of its path. -/
theorem TypeText.exists_name (h : TypeText isType names path arguments) :
    ∃ n t, names.head? = some n ∧ path ++ arguments = n ++ t ∧ IsName n ∧
      ∀ x, t.head? = some x → x = '.' ∨ x = '<' := by
  obtain ⟨n, ns, t, rfl, rfl, hn, ht⟩ := h.path.exists_name
  refine ⟨n, t ++ arguments, rfl, List.append_assoc _ _ _, hn, fun x hx => ?_⟩
  rcases ht with rfl | ht
  · rcases h.arguments with rfl | ⟨-, hangles⟩
    · cases hx
    · exact .inr (Option.some.inj (hx.symm.trans hangles.opens))
  · rw [List.head?_append, ht] at hx
    exact .inl (Option.some.inj hx).symm

/-- A path does not begin with a word that has been looked for in vain. -/
theorem head?_ne_of_eatWord {word : String} {c₁ : Cursor} (hword : eatWord word c = .ok (false, c₁))
    (hpath : PathText names path) (hread : (c₁.skipWhile isBlank).Reads path c')
    (hend : Stops continuesPath c'.rest) : names.head? ≠ some word.toList := by
  obtain ⟨n, ns, t, rfl, rfl, hn, ht⟩ := hpath.exists_name
  rintro ⟨⟩
  have hstops : Stops isNamePart (t ++ c'.rest) := by
    rcases ht with rfl | ht
    · exact stops_isNamePart hend
    · obtain ⟨t, rfl⟩ := List.head?_eq_some_iff.mp ht
      exact stops_cons.mpr (by decide)
  rw [eatWord, skipBlanks_bind, get_bind] at hword
  split at hword
  · cases hword
  · next hother =>
    cases hword
    rw [Cursor.skipWhile_skipWhile] at hread
    rw [hread.rest, List.append_assoc, leadingName_append hn hstops] at hother
    exact hother rfl

/-- What has been read as a type reference, and where it stands. -/
theorem exists_of_typeReference (hc : c.In s.text) {r : TypeReference}
    (h : typeReference s c = .ok (r, c')) :
    ∃ names path arguments, TypeText r.isType names path arguments ∧
      r.name.value = .ofList (path ++ arguments) ∧ path ++ arguments <:+: c.rest := by
  obtain ⟨b, c₁, hword, h⟩ := reading_bind_eq_ok h
  dsimp only at h
  rw [skipBlanks_bind, get_bind] at h
  have hreach₁ := (reaches_eatWord hword).trans (c₁.reaches_skipWhile isBlank)
  have hc₁ := hc.reaches hreach₁
  obtain ⟨first, c₂, hfirst, h⟩ := reading_bind_eq_ok h
  rw [get_bind] at h
  obtain ⟨u, c₃, hpathRest, h⟩ := reading_bind_eq_ok h
  obtain ⟨names, path, hpath, hread, hend⟩ :=
    exists_of_pathRest _ hc₁ hfirst (Nat.lt_succ_self _) hpathRest
  rw [Cursor.skipWhile_skipWhile] at hread
  -- the reference ends where its arguments do, if it has any
  have hlast : ∀ {arguments c₄}, c₃.Reads arguments c₄ →
      (arguments = [] ∨ (!b) = true ∧ Angles arguments) →
      (finished >>= fun _ => pure ⟨s.ident (c₁.skipWhile isBlank).pos c₄.pos, !b⟩) c₄ =
        .ok (r, c') →
        ∃ names path arguments, TypeText r.isType names path arguments ∧
          r.name.value = .ofList (path ++ arguments) ∧ path ++ arguments <:+: c.rest := by
    intro arguments c₄ hreads harguments h
    obtain ⟨u, c₅, -, h⟩ := reading_bind_eq_ok h
    cases h
    have hall := hread.trans hreads
    refine ⟨names, path, arguments, ⟨hpath, harguments, ?_⟩, value_ident hc₁ hall, ?_⟩
    · intro hb
      have hother : b = false := by simpa using hb
      exact head?_ne_of_eatWord (hother ▸ hword) hpath hread hend
    · obtain ⟨w, hw⟩ := hreach₁
      exact ⟨w, c₄.rest, by rw [hw.rest, hall.rest, List.append_assoc]⟩
  split at h
  · next hb =>
    obtain ⟨u, c₄, htypeArguments, h⟩ := reading_bind_eq_ok h
    obtain ⟨arguments, hreads, harguments⟩ := exists_of_typeArguments htypeArguments
    exact hlast hreads (harguments.imp_right fun hangles => ⟨hb, hangles⟩) h
  · exact hlast (.refl c₃) (.inl rfl) h

/-- The word before a value is taken, and a type does not begin with it. -/
theorem eatWord_of_text (h : TypeText isType names path arguments)
    (hrest : c.rest = ' ' :: ((if isType then [] else "typeof ".toList) ++ (path ++ arguments))) :
    ∃ c₁, eatWord "typeof" c = .ok (!isType, c₁) ∧
      (c₁.skipWhile isBlank).rest = path ++ arguments := by
  obtain ⟨n, t, hhead, hsplit, hn, ht⟩ := h.exists_name
  have hstops : Stops isNamePart t := by
    intro x hx
    rcases ht x hx with rfl | rfl <;> decide
  have hbegins : Stops isBlank (path ++ arguments) := by
    rw [hsplit]
    exact (Lexeme.Spelled.word hn).stops_isBlank t
  cases isType with
  | true =>
    have hskip : (c.skipWhile isBlank).rest = path ++ arguments := by
      rw [c.rest_skipWhile, hrest]
      exact dropWhile_of_stops hbegins
    refine ⟨c.skipWhile isBlank, eatWord_of_ne ?_, by rwa [Cursor.skipWhile_skipWhile]⟩
    rw [hskip, hsplit, leadingName_append hn hstops]
    rintro rfl
    exact h.word rfl hhead
  | false =>
    have hskip : (c.skipWhile isBlank).rest = "typeof".toList ++ ' ' :: (path ++ arguments) := by
      rw [c.rest_skipWhile, hrest]
      rfl
    have hword : IsName "typeof".toList :=
      ⟨'t', "ypeof".toList, rfl, by decide, List.all_eq_true.mp (by decide)⟩
    obtain ⟨c₁, heat, hrest₁⟩ := eatWord_append hword (stops_cons.mpr (by decide)) hskip
    refine ⟨c₁, heat, ?_⟩
    rw [c₁.rest_skipWhile, hrest₁]
    exact dropWhile_of_stops hbegins

/-- The text of a type reference as in code is read as the reference. -/
theorem typeReference_of_text (hc : c.In s.text) (h : TypeText isType names path arguments)
    (hrest : c.rest = ' ' :: ((if isType then [] else "typeof ".toList) ++ (path ++ arguments))) :
    ∃ r c', typeReference s c = .ok (r, c') ∧ r.isType = isType ∧
      r.name.value = .ofList (path ++ arguments) := by
  obtain ⟨c₁, heat, hrest₁⟩ := eatWord_of_text h hrest
  have hc₁ := (hc.reaches (reaches_eatWord heat)).reaches (c₁.reaches_skipWhile isBlank)
  rw [← Cursor.skipWhile_skipWhile] at hrest₁
  obtain ⟨first, c₂, hfirst, hmore⟩ := pathRest_of_path hc₁ h.path hrest₁ h.stops_arguments
  obtain ⟨c₃, hpathRest, hread⟩ := hmore (c₂.rest.length + 1) (Nat.lt_succ_self _)
  have hrest₃ := List.append_cancel_left (hread.rest.symm.trans hrest₁)
  rw [Cursor.skipWhile_skipWhile] at hread
  -- behind the arguments there is nothing left
  have hfinished : ∀ {c₄}, c₃.Reads arguments c₄ → ∃ c', finished c₄ = .ok ((), c') := by
    intro c₄ hreads
    have hend : c₄.rest = [] := by
      have hlength := congrArg List.length (hrest₃.symm.trans hreads.rest)
      rw [List.length_append] at hlength
      exact List.length_eq_zero_iff.mp (by omega)
    exact finished_nil (hend ▸ .nil (List.forall_mem_nil _))
  cases isType with
  | true =>
    obtain ⟨c₄, harguments, hreads⟩ :=
      typeArguments_of_text (h.arguments.imp_right And.right) hrest₃
    obtain ⟨c', hend⟩ := hfinished hreads
    refine ⟨⟨s.ident (c₁.skipWhile isBlank).pos c₄.pos, true⟩, c', ?_, rfl,
      value_ident hc₁ (hread.trans hreads)⟩
    rw [typeReference, reading_bind_of_ok heat, skipBlanks_bind, get_bind,
      reading_bind_of_ok hfirst, get_bind, reading_bind_of_ok hpathRest]
    change (typeArguments >>= fun _ => _) c₃ = _
    rw [reading_bind_of_ok harguments, get_bind, reading_bind_of_ok hend]
    rfl
  | false =>
    have hnone : arguments = [] :=
      h.arguments.resolve_right fun hangles => Bool.false_ne_true hangles.1
    subst hnone
    obtain ⟨c', hend⟩ := hfinished (.refl c₃)
    refine ⟨⟨s.ident (c₁.skipWhile isBlank).pos c₃.pos, false⟩, c', ?_, rfl, ?_⟩
    · rw [typeReference, reading_bind_of_ok heat, skipBlanks_bind, get_bind,
        reading_bind_of_ok hfirst, get_bind, reading_bind_of_ok hpathRest]
      change (finished >>= fun _ => _) c₃ = _
      rw [reading_bind_of_ok hend]
      rfl
    · rw [List.append_nil]
      exact value_ident hc₁ hread

/-! ### Comments -/

/-- A type reference is read from behind the first word of its comment on. -/
theorem exists_of_comment {whole : Location} {body : Cursor} (hbody : body.In s.text) {l : Location}
    {r : TypeReference} {d : Directive} (hd : d = .viewmodel l r ∨ d = .context l r)
    (h : comment s whole body = .ok (some (.directive d))) :
    ∃ c c', c.In s.text ∧ c.rest <:+ body.rest ∧ typeReference s c = .ok (r, c') := by
  have hbehind : ∀ {r' c'}, typeReference s (behindWord body) = .ok (r', c') → r' = r →
      ∃ c c', c.In s.text ∧ c.rest <:+ body.rest ∧ typeReference s c = .ok (r, c') := by
    rintro r' c' hread rfl
    exact ⟨behindWord body, c', hbody.reaches (body.reaches_drop _), List.drop_suffix _ _, hread⟩
  cases makes_of_comment h with
  | imports => rcases hd with hd | hd <;> cases hd
  | lint => rcases hd with hd | hd <;> cases hd
  | viewmodel _ hread =>
    refine hbehind hread ?_
    rcases hd with hd | hd <;> cases hd
    rfl
  | context _ hread =>
    refine hbehind hread ?_
    rcases hd with hd | hd <;> cases hd
    rfl

/-- The type of a context, from behind the first word of its comment on. -/
def contextDirective (s : Source) (location : Location) : Reading Directive := do
  return .context location (← typeReference s)

theorem comment_context {whole : Location} {body : Cursor} {t : List Char}
    (hbody : body.rest = "ko-context".toList ++ t) (ht : Stops (!isBlank ·) t) :
    comment s whole body =
      ((contextDirective s (s.location body.pos body.stop)).run'
        (body.drop "ko-context".toList.length)).map fun d => some (.directive d) := by
  have hclose : closesVirtual body.rest = false := by
    rw [hbody]
    rfl
  have hword : body.rest.takeWhile (!isBlank ·) = "ko-context".toList := by
    rw [hbody]
    exact takeWhile_append_of_stops (List.all_eq_true.mp (by decide)) ht
  unfold comment
  rw [hclose, if_neg Bool.false_ne_true, hword]
  change ((typeReference s).run' (body.drop "ko-context".toList.length) >>= fun r => _) = _
  rw [StateT.run', StateT.run']
  change _ = ((typeReference s (body.drop "ko-context".toList.length) >>= fun y => _).map _).map _
  cases typeReference s (body.drop "ko-context".toList.length) <;> rfl

/-! ### Reading back -/

/-- The type reference of a directive, and its text in the view. -/
theorem exists_of_mem_tokens {file : String} {text : List Char} {options : Options}
    {tokenized : Tokenized} (h : tokenize file text options = .ok tokenized) {l : Location}
    {r : TypeReference} (hr : .directive (.viewmodel l r) ∈ tokenized.tokens ∨
      .directive (.context l r) ∈ tokenized.tokens) :
    ∃ names path arguments, TypeText r.isType names path arguments ∧
      r.name.value = .ofList (path ++ arguments) ∧ ¬ "-->".toList <:+: path ++ arguments := by
  obtain ⟨d, hd, hmem⟩ : ∃ d, (d = .viewmodel l r ∨ d = .context l r) ∧
      .directive d ∈ tokenized.tokens := by
    rcases hr with hr | hr
    · exact ⟨_, .inl rfl, hr⟩
    · exact ⟨_, .inr rfl, hr⟩
  obtain ⟨s, whole, body, hbody, hno, hcomment⟩ := exists_of_directive h hmem
  obtain ⟨c, c', hc, hsuffix, hread⟩ := exists_of_comment hbody hd hcomment
  obtain ⟨names, path, arguments, htext, hvalue, hwithin⟩ := exists_of_typeReference hc hread
  refine ⟨names, path, arguments, htext, hvalue, fun hend => ?_⟩
  exact hno ((hend.trans hwithin).trans hsuffix.isInfix)

theorem toList_text {r : TypeReference} {t : List Char} (h : r.name.value = .ofList t) :
    r.text.toList = (if r.isType then [] else "typeof ".toList) ++ t := by
  rw [TypeReference.text, h]
  split
  · rw [String.toList_ofList, List.nil_append]
  · rw [String.toList_append]
    exact congrArg ("typeof ".toList ++ ·) String.toList_ofList

/-- The root of a type reference is the first name of its path. -/
theorem rootName_eq {r : TypeReference} (h : TypeText r.isType names path arguments)
    (hvalue : r.name.value = .ofList (path ++ arguments)) :
    names.head? = some r.rootName.toList := by
  obtain ⟨n, t, hhead, hsplit, hn, ht⟩ := h.exists_name
  rw [TypeReference.rootName, hvalue, String.toList_ofList, String.toList_ofList, hsplit,
    takeWhile_append_of_stops, hhead]
  · intro x hx
    have hpart := hn.isNamePart x hx
    have hne : x ≠ '.' ∧ x ≠ '<' := by
      constructor <;> rintro rfl <;> exact absurd hpart (by decide)
    simp [hne.1, hne.2]
  · intro x hx
    rcases ht x hx with rfl | rfl <;> rfl

end

end Markup

open Markup

/-- **A type reference of a view is read back** from a comment with its text as in code, as the same
reference.  Its root is the first name of its path. -/
theorem type_reference_reads_back {file : String} {text : List Char} {options : Options}
    {tokenized : Tokenized} (h : tokenize file text options = .ok tokenized) {l : Location}
    {r : TypeReference} (hr : .directive (.viewmodel l r) ∈ tokenized.tokens ∨
      .directive (.context l r) ∈ tokenized.tokens) (file' : String) (options' : Options) :
    (∃ l' r' dialect, tokenize file' (directiveComment "ko-context" r.text.toList) options' =
        .ok ⟨[.directive (.context l' r')], dialect⟩ ∧
      r'.name.value = r.name.value ∧ r'.isType = r.isType) ∧
    ∃ names path arguments, r.name.value = .ofList (path ++ arguments) ∧ PathText names path ∧
      (arguments = [] ∨ arguments.head? = some '<') ∧ names.head? = some r.rootName.toList := by
  obtain ⟨names, path, arguments, htext, hvalue, hno⟩ := exists_of_mem_tokens h hr
  have harguments : arguments = [] ∨ arguments.head? = some '<' :=
    htext.arguments.imp_right fun hangles => hangles.2.opens
  refine ⟨?_, names, path, arguments, hvalue, htext.path, harguments, rootName_eq htext hvalue⟩
  have hend : ¬ "-->".toList <:+: r.text.toList := by
    rw [toList_text hvalue]
    split
    · exact hno
    · intro hwithin
      have hparts :=
        infix_of_infix_append_cons (u := "typeof".toList) (x := ' ') (by decide) (by decide)
        hwithin
      exact hparts.elim (by decide) hno
  have hword : "ko-context".toList ≠ [] := by decide
  obtain ⟨s, location, c, hin, hrest, htokenize⟩ :=
    tokenize_directive hword (by decide) comment_context hend file' options'
  have hbehind : c.rest = ' ' :: r.text.toList := by
    obtain ⟨u, x, hlast, hx⟩ := htext.exists_last
    rw [hrest, toList_text hvalue, hlast, ← List.append_assoc, trimEnd_concat hx]
  obtain ⟨r', c', hread, htype, hname⟩ :=
    typeReference_of_text hin htext (toList_text hvalue ▸ hbehind)
  rw [contextDirective, reading_bind_of_ok hread] at htokenize
  exact ⟨location, r', s.dialect, htokenize, hname.trans hvalue.symm, htype⟩

/-- A view whose view model is a generic type, with a blank in its path. -/
def genericView : String := "<!-- ko-viewmodel a. B<c<d>, e> -->"

theorem type_reference_reads_back_genericView :
    ∃ tokenized l r,
      tokenize "view.html" genericView.toList ⟨["data-bind"], false⟩ = .ok tokenized ∧
      .directive (.viewmodel l r) ∈ tokenized.tokens ∧ r.text = "a. B<c<d>, e>" ∧
      ∃ l' r' dialect, tokenize "view.html" (directiveComment "ko-context" "a. B<c<d>, e>".toList)
          ⟨["data-bind"], false⟩ = .ok ⟨[.directive (.context l' r')], dialect⟩ ∧
        r'.name.value = "a. B<c<d>, e>" ∧ r'.isType = true := by
  have hview :
      (tokenize "view.html" genericView.toList ⟨["data-bind"], false⟩).toOption.map (·.tokens) =
      some [.directive (.viewmodel ⟨⟨1, 5⟩, ⟨1, 31⟩, 5, 31⟩
        ⟨⟨"a. B<c<d>, e>", ⟨⟨1, 18⟩, ⟨1, 31⟩, 18, 31⟩⟩, true⟩)] := by
    decide +kernel
  obtain ⟨tokenized, ht, htokens⟩ := Option.map_eq_some_iff.mp hview
  have htokenize := Except.toOption_eq_some.mp ht
  have hmem := htokens ▸ List.mem_singleton_self _
  obtain ⟨hback, -⟩ :=
    type_reference_reads_back htokenize (.inl hmem) "view.html" ⟨["data-bind"], false⟩
  exact ⟨tokenized, _, _, htokenize, hmem, rfl, hback⟩

end ViewLint
