import ViewLint.Markup.Fault
import ViewLint.Proofs.Diagnostic.Templates

/-!
# Messages as substitutions

Filling the places of a template one number after the other comes to the same as putting all
arguments in at once, as long as every pass finds the places of its own number only.  It finds more
where a place is part of a longer number, where an argument has a place in it, and where an argument
that begins with a digit stands behind a `$`.

If the parts of a template do not run into each other, filling its places is the substitution of
arguments which have been filled themselves, with the arguments before them.

## Main definitions

* `TemplatePart.numbered`, `TemplatePart.joins` — two parts do not run into each other.
* `Apart`, `Midway` — parts that do not, and what stands in them between two passes.

## Main results

* `fillPlaces_render` — all passes over the parts of a template.
* `fillPlaces_eq_substitute` — filling the places of a template is a substitution.
* `filling_is_substitution_iff` — for which templates and arguments filling is the substitution.
* `message_ofKind`, `Markup.message_diagnostic` — the messages of the catalogue.
-/

namespace ViewLint

/-! ### Parts that do not run into each other -/

/-- Behind a `$` that stays, no digit begins the number of an argument. -/
def TemplatePart.numbered (n : Nat) : TemplatePart → TemplatePart → Bool
  | .char c, .char d => c != '$' || !d.isDigit || n ≤ digitValue d
  | _, _ => true

/-- An argument goes with anything before it: it does not begin with a digit, and has no place for
the arguments before it. -/
def isPlain (i : Nat) (a : List Char) : Bool := !a.head?.any Char.isDigit && quiet i a

/-- Behind a `$` or a place there is no place but that of the first argument or of a plain one. -/
def TemplatePart.joins (as : List (List Char)) : TemplatePart → TemplatePart → Bool
  | .char c, .place i => c != '$' || i == 0 || (as[i]?).any (isPlain i)
  | .place _, .place i => i == 0 || (as[i]?).any (isPlain i)
  | _, _ => true

/-- The parts of a template do not run into each other, when arguments come into its places. -/
structure Apart (as : List (List Char)) (ps : List TemplatePart) : Prop where
  ends : ps.IsChain (TemplatePart.ends · ·)
  numbered : ps.IsChain (TemplatePart.numbered as.length · ·)
  joins : ps.IsChain (TemplatePart.joins as · ·)

/-- What stands in the places of a template when the passes with numbers below `m` are to be made.
The places of these numbers are still there, and plain arguments of the others are as they were. -/
structure Midway (as : List (List Char)) (m : Nat) (f : Nat → List Char) : Prop where
  low : ∀ i < m, f i = placeholder i
  high : ∀ i a, m ≤ i → as[i]? = some a → isPlain i a = true → f i = a

section

variable {as : List (List Char)} {m : Nat} {f : Nat → List Char} {q : TemplatePart}
  {ps : List TemplatePart}

theorem Apart.tail (h : Apart as (q :: ps)) : Apart as ps :=
  ⟨h.ends.of_cons, h.numbered.of_cons, h.joins.of_cons⟩

/-- Behind a place there is no digit, and no place but that of the first argument or of a plain
one. -/
theorem Apart.behind_place {i : Nat} (h : Apart as (.place i :: ps)) :
    (∀ d, ps.head? = some (.char d) → d.isDigit = false) ∧
      ∀ j, ps.head? = some (.place j) → j = 0 ∨ (as[j]?).any (isPlain j) = true := by
  refine ⟨fun d hd => ?_, fun j hj => ?_⟩
  · simpa [TemplatePart.ends] using (List.isChain_cons.mp h.ends).1 _ hd
  · simpa [TemplatePart.joins] using (List.isChain_cons.mp h.joins).1 _ hj

/-- Midway, what follows a place does not begin with a digit. -/
theorem head?_render (hf : Midway as (m + 1) f) (hps : Apart as ps)
    (hchar : ∀ d, ps.head? = some (.char d) → d.isDigit = false)
    (hplace : ∀ i, ps.head? = some (.place i) → i = 0 ∨ (as[i]?).any (isPlain i) = true)
    {d : Char} (hd : (render f ps).head? = some d) : d.isDigit = false := by
  induction ps with
  | nil => cases hd
  | cons q ps ih =>
    cases q with
    | char c =>
      cases hd
      exact hchar d rfl
    | place i =>
      rw [render_cons, TemplatePart.text] at hd
      rcases Nat.lt_or_ge i (m + 1) with hlt | hge
      · rw [hf.low i hlt] at hd
        cases hd
        decide
      · obtain ⟨a, ha, hplain⟩ :=
          (Option.any_eq_true _ _).mp ((hplace i rfl).resolve_left (by omega))
        rw [hf.high i a hge ha hplain] at hd
        cases a with
        | nil => exact ih hps.tail hps.behind_place.1 hps.behind_place.2 hd
        | cons c a =>
          cases hd
          simpa using (Bool.and_eq_true_iff.mp hplain).1

/-- Midway, no occurrence of a place begins in one part and ends in the next one. -/
theorem uncut_render (hm : m < as.length) (hf : Midway as (m + 1) f) (hps : Apart as (q :: ps)) :
    Uncut (placeholder m) (q.text f) (render f ps) := by
  intro p₁ p₂ hp hne₁ hne₂ hsuffix hbegin
  -- what is cut off at the end are digits
  obtain ⟨c, p₁, rfl⟩ := List.exists_cons_of_ne_nil hne₁
  obtain ⟨d, p₂, rfl⟩ := List.exists_cons_of_ne_nil hne₂
  rw [placeholder, List.cons_append] at hp
  obtain ⟨rfl, hrepr⟩ := List.cons.inj hp
  have hdigit : d.isDigit = true := isDigit_of_mem_repr (k := m) (by simp [hrepr])
  have hhead : (render f ps).head? = some d := by
    obtain ⟨rest, hrest⟩ := hbegin
    rw [← hrest]
    rfl
  have hnot : ¬ d.isDigit = false := by simp [hdigit]
  cases q with
  | place i => exact hnot (head?_render hf hps.tail hps.behind_place.1 hps.behind_place.2 hhead)
  | char c =>
    -- all digits of the number are behind the `$`
    have hlength := hsuffix.length_le
    simp only [TemplatePart.text, List.length_cons, List.length_nil] at hlength
    obtain rfl : p₁ = [] := List.length_eq_zero_iff.mp (by omega)
    obtain rfl : '$' = c := List.head_eq_of_cons_eq (hsuffix.eq_of_length rfl)
    refine hnot (head?_render hf hps.tail (fun e he => ?_) (fun j hj => ?_) hhead)
    · -- a digit that stays there begins no number like this
      obtain ⟨ps, rfl⟩ := List.head?_eq_some_iff.mp he
      obtain rfl : e = d := by simpa [TemplatePart.text] using hhead
      obtain ⟨e', ds, he', hle⟩ := exists_repr_eq_cons m
      obtain ⟨rfl, -⟩ := List.cons.inj (hrepr.symm.trans he')
      have hnumbered := (List.isChain_cons.mp hps.numbered).1 _ he
      simp only [TemplatePart.numbered, bne_self_eq_false, hdigit, Bool.not_true, Bool.false_or,
        decide_eq_true_eq] at hnumbered
      omega
    · simpa [TemplatePart.joins] using (List.isChain_cons.mp hps.joins).1 _ hj

/-- A pass over parts that do not run into each other is a pass over each of them. -/
theorem replaceAll_render (hm : m < as.length) (hf : Midway as (m + 1) f) (hps : Apart as ps)
    (r : List Char) :
    replaceAll (placeholder m) r (render f ps) =
      render (fun i => replaceAll (placeholder m) r (f i)) ps := by
  induction ps with
  | nil => rfl
  | cons q ps ih =>
    rw [render_cons, render_cons, replaceAll_append (uncut_render hm hf hps), ih hps.tail]
    cases q with
    | place i => rfl
    | char c =>
      obtain ⟨d, ds, hrepr, -⟩ := exists_repr_eq_cons m
      rw [TemplatePart.text, TemplatePart.text, replaceAll_cons_stays]
      · rfl
      · intro hp
        have hlength := hp.length_le
        simp [placeholder, hrepr] at hlength

/-- What stands in the places after a pass. -/
theorem Midway.pass {a : List Char} (ha : as[m]? = some a) (hf : Midway as (m + 1) f) :
    Midway as m fun i => replaceAll (placeholder m) a (f i) where
  low i hi := by rw [hf.low i (Nat.lt_succ_of_lt hi), replaceAll_placeholder_of_lt hi]
  high i b hi hb hplain := by
    rcases Nat.lt_or_ge m i with hlt | hge
    · have hquiet := (Bool.and_eq_true_iff.mp hplain).2
      rw [hf.high i b hlt hb hplain, replaceAll_of_quiet hlt hquiet]
    · -- the argument of this pass comes into its places as it is
      obtain rfl : i = m := by omega
      rw [hf.low i (Nat.lt_succ_self i), replaceAll_self _ (placeholder_ne_nil i)]
      exact Option.some.inj (ha.symm.trans hb)

/-- All passes over parts that do not run into each other are passes over each of them. -/
theorem fillPlaces_render (hm : m ≤ as.length) (hf : Midway as m f) (hps : Apart as ps) :
    fillPlaces (render f ps) (as.take m) = render (fun i => fillPlaces (f i) (as.take m)) ps := by
  induction m generalizing f with
  | zero => rfl
  | succ m ih =>
    obtain ⟨a, ha⟩ : ∃ a, as[m]? = some a := ⟨_, List.getElem?_eq_getElem hm⟩
    rw [fillPlaces_take_succ ha, replaceAll_render hm hf hps, ih (Nat.le_of_lt hm) (hf.pass ha)]
    exact render_congr fun i _ => (fillPlaces_take_succ ha _).symm

end

/-- Filling a template whose parts do not run into each other is the substitution of the arguments,
in which the places of the arguments before them are filled. -/
theorem fillPlaces_eq_substitute {as : List (List Char)} {t : List Char}
    (hnumbered : (templateParts as.length t).IsChain (TemplatePart.numbered as.length · ·))
    (hjoins : (templateParts as.length t).IsChain (TemplatePart.joins as · ·)) :
    fillPlaces t as = substitute (as.mapIdx fun i a => fillPlaces a (as.take i)) t := by
  have hstart : Midway as as.length placeholder :=
    ⟨fun _ _ => rfl, fun i a hi ha _ => by simp [List.getElem?_eq_none hi] at ha⟩
  have hfill := fillPlaces_render (Nat.le_refl _) hstart ⟨isChain_ends _ 0 t, hnumbered, hjoins⟩
  rw [render_templatePartsFrom, List.drop_zero, List.take_length] at hfill
  rw [hfill, substitute, List.length_mapIdx]
  refine render_congr fun i hi => ?_
  have hlt := lt_of_mem_templateParts hi
  have ha : as[i]? = some as[i] := List.getElem?_eq_getElem hlt
  have hplace := fillPlaces_placeholder ha hlt (Nat.le_refl _)
  rw [List.take_length] at hplace
  rw [hplace, List.getElem?_mapIdx, ha]
  rfl

/-- If the arguments bring in no places, filling is the substitution of the arguments as they
are. -/
theorem substitute_of_quiet {as : List (List Char)} {t : List Char}
    (h : ∀ i a, .place i ∈ templateParts as.length t → as[i]? = some a → quiet i a = true) :
    substitute (as.mapIdx fun i a => fillPlaces a (as.take i)) t = substitute as t := by
  rw [substitute, substitute, List.length_mapIdx]
  refine render_congr fun i hi => ?_
  have hlt := lt_of_mem_templateParts hi
  have ha : as[i]? = some as[i] := List.getElem?_eq_getElem hlt
  rw [List.getElem?_mapIdx, ha, Option.map_some, Option.getD_some, Option.getD_some,
    fillPlaces_of_quiet (List.length_take_le i as) (h i _ hi ha)]

/-! ### Templates that run into each other -/

section

variable {p q t : List Char} {x : Char}

/-- What a text begins with, up to where a character has been put in, it has begun with before. -/
theorem prefix_of_prefix_replaceAll (hx : x ∉ p) (h : p <+: replaceAll q [x] t) : p <+: t := by
  induction t generalizing p with
  | nil => exact h
  | cons c t ih =>
    cases p with
    | nil => exact List.nil_prefix
    | cons d p =>
      rw [List.mem_cons, not_or] at hx
      rw [replaceAll, replaceFrom] at h
      split at h
      · exact absurd (List.cons_prefix_cons.mp h).1.symm hx.1
      · obtain ⟨rfl, htail⟩ := List.cons_prefix_cons.mp h
        exact (List.prefix_cons_inj d).mpr (ih hx.2 htail)

/-- Where a pass puts in a character, nothing comes up that has not been there, unless it has the
character in it; and what the pass looks for goes away. -/
theorem infix_of_infix_replaceFrom (hp : p ≠ []) (hx : x ∉ p) {m : Nat}
    (h : p <:+: replaceFrom q [x] m t) : p <:+: t ∧ p ≠ q := by
  induction t generalizing m with
  | nil =>
    rw [replaceFrom, List.infix_nil] at h
    exact absurd h hp
  | cons c t ih =>
    have hlater : ∀ {m}, p <:+: replaceFrom q [x] m t → p <:+: c :: t ∧ p ≠ q := fun h =>
      ⟨(ih h).1.trans (List.suffix_cons c t).isInfix, (ih h).2⟩
    cases m with
    | succ m => exact hlater h
    | zero =>
      rw [replaceFrom] at h
      split at h
      · rcases List.infix_cons_iff.mp h with hfirst | h
        · obtain ⟨d, p, rfl⟩ := List.exists_cons_of_ne_nil hp
          exact absurd (List.cons_prefix_cons.mp hfirst).1.symm fun heq =>
            hx (heq ▸ List.mem_cons_self)
        · exact hlater h
      · next hno =>
        rcases List.infix_cons_iff.mp h with hfirst | h
        · -- it begins here, where the pattern does not
          have hbefore : p <+: c :: t := prefix_of_prefix_replaceAll hx (q := q) (by
            rwa [replaceAll, replaceFrom, if_neg hno])
          refine ⟨hbefore.isInfix, ?_⟩
          rintro rfl
          exact hno (List.isPrefixOf_iff_prefix.mpr hbefore)
        · exact hlater h

end

theorem placeholder_not_infix_fillPlaces {k n : Nat} (hk : k < n) (t : List Char) :
    ¬ placeholder k <:+: fillPlaces t (List.replicate n ['x']) := by
  have hx : 'x' ∉ placeholder k := by
    rw [placeholder, List.mem_cons, not_or]
    exact ⟨by decide, fun h => absurd (isDigit_of_mem_repr h) (by decide)⟩
  -- once its pass is over, the place does not come up again
  have hkept : ∀ m t, placeholder k <:+: fillPlaces t (List.replicate m ['x']) →
      placeholder k <:+: t := by
    intro m
    induction m with
    | zero => exact fun t h => h
    | succ m ih =>
      intro t h
      rw [List.replicate_succ', fillPlaces_concat] at h
      exact (infix_of_infix_replaceFrom (placeholder_ne_nil k) hx (ih _ h)).1
  induction n generalizing t with
  | zero => omega
  | succ n ih =>
    rw [List.replicate_succ', fillPlaces_concat, List.length_replicate]
    rcases Nat.lt_or_ge k n with hlt | hge
    · exact ih hlt _
    · obtain rfl : k = n := by omega
      exact fun h => (infix_of_infix_replaceFrom (placeholder_ne_nil k) hx (hkept k _ h)).2 rfl

theorem render_infix_render {f : Nat → List Char} {qs ps : List TemplatePart} (h : qs <:+: ps) :
    render f qs <:+: render f ps := by
  obtain ⟨before, after, rfl⟩ := h
  exact ⟨render f before, render f after, by simp [render]⟩

theorem repr_digitValue {d : Char} (h : d.isDigit = true) :
    (Nat.repr (digitValue d)).toList = [d] := by
  have hrange : 48 ≤ d.toNat ∧ d.toNat ≤ 57 := by
    simpa [Char.isDigit, UInt32.le_iff_toNat_le] using h
  have hvalue : digitValue d = d.toNat - 48 := rfl
  rw [Nat.toList_repr, Nat.toDigits_of_lt_base (by omega)]
  refine congrArg (fun c => [c]) (Char.toNat_inj.mp ?_)
  rw [Nat.toNat_digitChar_of_lt_ten (by omega)]
  omega

/-- A template that is filled right whatever its arguments are has no digit behind a `$` that stays,
if it begins the number of an argument. -/
theorem isChain_numbered_of_substitutes {n : Nat} {t : List Char}
    (h : ∀ as : List (List Char), as.length = n → fillPlaces t as = substitute as t) :
    (templateParts n t).IsChain (TemplatePart.numbered n · ·) := by
  refine (List.isChain_isInfix _).imp fun q r hparts => ?_
  match q, r with
  | .place _, _ => rfl
  | .char _, .place _ => rfl
  | .char c, .char d =>
    by_contra hno
    simp only [TemplatePart.numbered, Bool.or_eq_true, bne_iff_ne, Bool.not_eq_true',
      decide_eq_true_eq, not_or, not_not, Bool.not_eq_false, Nat.not_le] at hno
    obtain ⟨⟨rfl, hdigit⟩, hlt⟩ := hno
    -- with arguments that cannot be mistaken for anything, it would be filled
    have hstays : placeholder (digitValue d) <:+: substitute (List.replicate n ['x']) t := by
      rw [placeholder, repr_digitValue hdigit, substitute, List.length_replicate]
      exact render_infix_render hparts
    rw [← h _ List.length_replicate] at hstays
    exact placeholder_not_infix_fillPlaces hlt t hstays

/-- A template that is filled right whatever its arguments are has places for the first one only. -/
theorem eq_zero_of_substitutes {n : Nat} {t : List Char}
    (h : ∀ as : List (List Char), as.length = n → fillPlaces t as = substitute as t) {i : Nat}
    (hi : .place i ∈ templateParts n t) : i = 0 := by
  by_contra hne
  have hlt := lt_of_mem_templateParts hi
  -- the argument has a place for the first one in it, which would be filled
  obtain ⟨n, rfl⟩ : ∃ m, n = m + 1 := ⟨n - 1, by omega⟩
  obtain ⟨i, rfl⟩ : ∃ j, i = j + 1 := ⟨i - 1, by omega⟩
  let as : List (List Char) := ['x'] :: (List.replicate n ['x']).set i (placeholder 0)
  have hlength : as.length = n + 1 := by simp [as]
  have hstays : placeholder 0 <:+: substitute as t := by
    obtain ⟨before, after, hparts⟩ := List.append_of_mem hi
    have hplace : [.place (i + 1)] <:+: templateParts as.length t :=
      ⟨before, after, by rw [hlength, hparts, List.append_assoc, List.singleton_append]⟩
    have htext : (as[i + 1]?).getD [] = placeholder 0 := by simp [as, show i < n by omega]
    rw [substitute]
    simpa [TemplatePart.text, htext] using
      render_infix_render (f := fun j => (as[j]?).getD []) hplace
  rw [← h as hlength] at hstays
  exact (infix_of_infix_replaceFrom (placeholder_ne_nil 0) (by decide) hstays).2 rfl

/-! ### Templates and messages -/

theorem fillTemplate_eq_substituteIn_iff {template : String} {arguments arguments' : List String} :
    fillTemplate template arguments = substituteIn template arguments' ↔
      fillPlaces template.toList (arguments.map String.toList) =
        substitute (arguments'.map String.toList) template.toList := by
  rw [fillTemplate, substituteIn, String.ofList_inj]

theorem map_toList_mapIdx_fillTemplate (arguments : List String) :
    (arguments.mapIdx fun i a => fillTemplate a (arguments.take i)).map String.toList =
      (arguments.map String.toList).mapIdx fun i a =>
        fillPlaces a ((arguments.map String.toList).take i) := by
  refine List.ext_getElem? fun i => ?_
  cases h : arguments[i]? <;> simp [h, fillTemplate]

/-- Arguments that are texts, as lists of characters. -/
theorem exists_map_toList (as : List (List Char)) :
    ∃ arguments : List String, arguments.map String.toList = as :=
  ⟨as.map String.ofList, by simp⟩

/-- A template whose parts do not run into each other, with its arguments. -/
theorem fillTemplate_eq_substituteIn {template : String} {arguments : List String}
    (hnumbered : (templateParts arguments.length template.toList).IsChain
      (TemplatePart.numbered arguments.length · ·))
    (hjoins : (templateParts arguments.length template.toList).IsChain
      (TemplatePart.joins (arguments.map String.toList) · ·)) :
    fillTemplate template arguments =
      substituteIn template (arguments.mapIdx fun i a => fillTemplate a (arguments.take i)) ∧
    ((∀ i a, .place i ∈ templateParts arguments.length template.toList → arguments[i]? = some a →
        quiet i a.toList = true) →
      fillTemplate template arguments = substituteIn template arguments) := by
  have hlength : (arguments.map String.toList).length = arguments.length := List.length_map _
  rw [fillTemplate_eq_substituteIn_iff, fillTemplate_eq_substituteIn_iff,
    map_toList_mapIdx_fillTemplate]
  have hfill := fillPlaces_eq_substitute (by rwa [hlength]) (by rwa [hlength])
  refine ⟨hfill, fun hquiet => ?_⟩
  rw [hfill]
  refine substitute_of_quiet fun i a hi ha => ?_
  rw [hlength] at hi
  rw [List.getElem?_map] at ha
  obtain ⟨b, hb, rfl⟩ := Option.map_eq_some_iff.mp ha
  exact hquiet i b hi hb

/-- A template with places for the first argument only.  This argument comes in last, and may stand
anywhere. -/
theorem fillTemplate_of_first_only {template : String} {arguments : List String}
    (hnumbered : (templateParts arguments.length template.toList).IsChain
      (TemplatePart.numbered arguments.length · ·))
    (hfirst : ∀ i, .place i ∈ templateParts arguments.length template.toList → i = 0) :
    fillTemplate template arguments = substituteIn template arguments := by
  refine (fillTemplate_eq_substituteIn hnumbered ?_).2 ?_
  · refine (List.isChain_isInfix _).imp fun q r hparts => ?_
    match q, r with
    | .place _, .char _ => rfl
    | .char _, .char _ => rfl
    | q, .place i =>
      obtain rfl := hfirst i (hparts.subset (by simp))
      cases q <;> simp [TemplatePart.joins]
  · intro i a hi _
    rw [hfirst i hi]
    exact quiet_zero _

/-- **When the places of a template are filled at once.**  For a template and a number of arguments,
filling is the substitution whatever the arguments are just if it has places for the first argument
only and every other `$` in it that is followed by a digit is followed by one that is not the number
of an argument.  With other places, and if an argument whose place stands behind a `$` or a place is
plain, filling is the substitution of the arguments, in which the places of the arguments before
them have been filled; and so it is the substitution of the arguments as they are, if these have no
such places. -/
theorem filling_is_substitution_iff (template : String) (n : Nat) :
    let ps := templateParts n template.toList
    ((∀ arguments : List String, arguments.length = n →
        fillTemplate template arguments = substituteIn template arguments) ↔
      ps.IsChain (TemplatePart.numbered n · ·) ∧ ∀ i, .place i ∈ ps → i = 0) ∧
    ∀ arguments : List String, arguments.length = n →
      ps.IsChain (TemplatePart.numbered n · ·) →
      ps.IsChain (TemplatePart.joins (arguments.map String.toList) · ·) →
      fillTemplate template arguments =
        substituteIn template (arguments.mapIdx fun i a => fillTemplate a (arguments.take i)) ∧
      ((∀ i a, .place i ∈ ps → arguments[i]? = some a → quiet i a.toList = true) →
        fillTemplate template arguments = substituteIn template arguments) := by
  intro ps
  refine ⟨⟨fun h => ?_, ?_⟩, ?_⟩
  · have hsubstitutes : ∀ as : List (List Char), as.length = n →
        fillPlaces template.toList as = substitute as template.toList := by
      intro as hn
      obtain ⟨arguments, rfl⟩ := exists_map_toList as
      exact fillTemplate_eq_substituteIn_iff.mp (h arguments (by rwa [List.length_map] at hn))
    exact ⟨isChain_numbered_of_substitutes hsubstitutes,
      fun i hi => eq_zero_of_substitutes hsubstitutes hi⟩
  · rintro ⟨hnumbered, hfirst⟩ arguments rfl
    exact fillTemplate_of_first_only hnumbered hfirst
  · rintro arguments rfl hnumbered hjoins
    exact fillTemplate_eq_substituteIn hnumbered hjoins

theorem filling_is_substitution_iff_tightTemplate :
    let ps := templateParts 3 "$1 and $0$2, $9$".toList
    ps.IsChain (TemplatePart.numbered 3 · ·) ∧
    ps.IsChain (TemplatePart.joins ["$2".toList, "5$".toList, "c".toList] · ·) ∧
    fillTemplate "$1 and $0$2, $9$" ["$2", "5$", "c"] =
      substituteIn "$1 and $0$2, $9$" ["$2", "5$", "c"] ∧
    substituteIn "$1 and $0$2, $9$" ["$2", "5$", "c"] = "5$ and $2c, $9$" := by
  intro ps
  have hnumbered : ps.IsChain (TemplatePart.numbered 3 · ·) := by decide +kernel
  have hjoins : ps.IsChain (TemplatePart.joins ["$2".toList, "5$".toList, "c".toList] · ·) := by
    decide +kernel
  obtain ⟨-, hfilled⟩ := filling_is_substitution_iff "$1 and $0$2, $9$" 3
  obtain ⟨-, hquiet⟩ := hfilled ["$2", "5$", "c"] rfl hnumbered hjoins
  refine ⟨hnumbered, hjoins, hquiet ?_, by decide +kernel⟩
  intro i a _ ha
  match i, ha with
  | 0, rfl => rfl
  | 1, rfl => decide
  | 2, rfl => decide

/-- A place is filled that is part of a longer number, and one that an argument brings in. -/
theorem filling_differs_from_substitution :
    (fillTemplate "$1 $10" ["a", "b"] = "b b0" ∧ substituteIn "$1 $10" ["a", "b"] = "b $10") ∧
    fillTemplate "$1" ["a", "$0"] = "a" ∧ substituteIn "$1" ["a", "$0"] = "$0" := by
  decide +kernel

/-! ### Messages of the catalogue -/

/-- A diagnostic of the catalogue with at most one argument has it put into its message. -/
theorem message_ofKind (kind : Kind) (file : String) (location : Option Location)
    {arguments : List String} (h : arguments.length ≤ 1) :
    (Diagnostic.ofKind kind file location arguments).message =
      substituteIn kind.template arguments := by
  have hall : ∀ kind ∈ Kind.all, ∀ n < 2, (templateParts n kind.template.toList).IsChain
      (TemplatePart.numbered n · ·) := by
    decide +kernel
  refine fillTemplate_of_first_only (hall kind kind.mem_all _ (Nat.lt_succ_of_le h)) fun i hi => ?_
  have hlt := lt_of_mem_templateParts hi
  omega

/-- The diagnostic of a fault has what was expected, what was found and the construct put into its
message. -/
theorem Markup.message_diagnostic (s : Source) (f : Fault) :
    (s.diagnostic f).message = substituteIn Kind.malformedMarkup.template
      [f.expected.text, f.found.text, f.construct.text] := by
  refine (fillTemplate_eq_substituteIn ?_ ?_).2 fun i a _ ha => ?_
  · exact of_decide_eq_true rfl
  · exact of_decide_eq_true rfl
  · match i, ha with
    | 0, _ => exact quiet_zero _
    | 1, rfl =>
      cases f.found with
      | char c => simp [Found.text, quiet]
      | endOfInput => decide
      | endOfDirective => decide
    | 2, rfl => cases f.construct <;> decide

end ViewLint
