import Mathlib.Data.List.Chain
import Mathlib.Data.List.Infix
import Mathlib.Data.List.Induction
import ViewLint.Diagnostic.Message

/-!
# Templates of messages

To put the arguments of a message into its template at once, the template is cut into parts: the
places of arguments, and all other characters.  A place is a `$` with all the digits behind it, if
these are the number of an argument.  The places are filled one number after the other, each in a
pass over the whole text.  A pass over two texts one behind the other can be made over each of them,
if no occurrence of the pattern is cut by the end of the first one.

## Main definitions

* `TemplatePart`, `templateParts` — the parts of a template.
* `substituteIn` — a template with its arguments put in at once.
* `quiet` — a text has no place for the first so many arguments.

## Main results

* `render_templatePartsFrom` — the parts make up the template.
* `replaceAll_append` — a pass over two texts.
* `fillPlaces_take_succ` — all passes, beginning with the highest number.
* `fillPlaces_placeholder` — what comes into a place.
-/

namespace ViewLint

/-! ### Templates -/

/-- What a digit stands for. -/
def digitValue (d : Char) : Nat := d.toNat - '0'.toNat

/-- Which of `n` arguments some digits ask for.  They have to be its number, without needless
zeros. -/
def argumentNumber? (n : Nat) (digits : List Char) : Option Nat :=
  let i := Nat.ofDigitChars 10 digits 0
  if i < n ∧ (Nat.repr i).toList = digits then some i else none

/-- The argument whose place a text begins with: a `$` and all digits behind it. -/
def placeAt? (n : Nat) : List Char → Option Nat
  | '$' :: t => argumentNumber? n (t.takeWhile Char.isDigit)
  | _ => none

/-- A part of a template. -/
inductive TemplatePart where
  /-- A character that stays. -/
  | char (c : Char)
  /-- The place of an argument. -/
  | place (i : Nat)
  deriving DecidableEq, Repr

/-- The parts of a template.  `pending` characters of a place are still to be skipped. -/
def templatePartsFrom (n : Nat) : Nat → List Char → List TemplatePart
  | _, [] => []
  | pending + 1, _ :: t => templatePartsFrom n pending t
  | 0, c :: t =>
    match placeAt? n (c :: t) with
    | some i => .place i :: templatePartsFrom n (Nat.repr i).length t
    | none => .char c :: templatePartsFrom n 0 t

/-- The parts of a template for `n` arguments. -/
def templateParts (n : Nat) (t : List Char) : List TemplatePart := templatePartsFrom n 0 t

/-- The text of a part, where `f` says what stands in a place. -/
def TemplatePart.text (f : Nat → List Char) : TemplatePart → List Char
  | .char c => [c]
  | .place i => f i

/-- The text that some parts make. -/
def render (f : Nat → List Char) (ps : List TemplatePart) : List Char := ps.flatMap (·.text f)

/-- A template with all arguments put in at once. -/
def substitute (arguments : List (List Char)) (t : List Char) : List Char :=
  render (fun i => (arguments[i]?).getD []) (templateParts arguments.length t)

/-- The message with all arguments put into the template at once. -/
def substituteIn (template : String) (arguments : List String) : String :=
  .ofList (substitute (arguments.map String.toList) template.toList)

@[simp] theorem render_nil (f : Nat → List Char) : render f [] = [] := rfl

@[simp] theorem render_cons (f : Nat → List Char) (q : TemplatePart) (ps : List TemplatePart) :
    render f (q :: ps) = q.text f ++ render f ps := List.flatMap_cons

theorem render_congr {f g : Nat → List Char} {ps : List TemplatePart}
    (h : ∀ i, .place i ∈ ps → f i = g i) : render f ps = render g ps := by
  induction ps with
  | nil => rfl
  | cons q ps ih =>
    rw [render_cons, render_cons, ih fun i hi => h i (List.mem_cons_of_mem _ hi)]
    cases q with
    | char c => rfl
    | place i => rw [TemplatePart.text, TemplatePart.text, h i List.mem_cons_self]

/-! ### Numbers -/

theorem le_ofDigitChars (ds : List Char) (init : Nat) : init ≤ Nat.ofDigitChars 10 ds init := by
  induction ds generalizing init with
  | nil => simp [Nat.ofDigitChars_eq_foldl]
  | cons d ds ih =>
    rw [Nat.ofDigitChars_cons]
    exact Nat.le_trans (by omega) (ih _)

/-- The first digits of a number make a number that is not larger. -/
theorem ofDigitChars_le_of_prefix {ds : List Char} {j : Nat} (h : ds <+: (Nat.repr j).toList) :
    Nat.ofDigitChars 10 ds 0 ≤ j := by
  obtain ⟨more, hmore⟩ := h
  have hj : Nat.ofDigitChars 10 (ds ++ more) 0 = j := by
    rw [hmore, Nat.toList_repr, Nat.ofDigitChars_toDigits (by decide) (by decide)]
  rw [Nat.ofDigitChars_append] at hj
  exact Nat.le_trans (le_ofDigitChars more _) (Nat.le_of_eq hj)

theorem le_of_repr_prefix {j k : Nat} (h : (Nat.repr k).toList <+: (Nat.repr j).toList) :
    k ≤ j := by
  have hle := ofDigitChars_le_of_prefix h
  rwa [Nat.toList_repr, Nat.ofDigitChars_toDigits (by decide) (by decide)] at hle

/-- A number has a first digit, which does not stand for more than the number. -/
theorem exists_repr_eq_cons (k : Nat) :
    ∃ d ds, (Nat.repr k).toList = d :: ds ∧ digitValue d ≤ k := by
  obtain ⟨d, ds, hrepr⟩ := List.exists_cons_of_ne_nil (l := (Nat.repr k).toList) (by
    rw [Nat.toList_repr]
    exact Nat.toDigits_ne_nil)
  refine ⟨d, ds, hrepr, ?_⟩
  have hfirst : [d] <+: (Nat.repr k).toList := ⟨ds, hrepr.symm⟩
  simpa [Nat.ofDigitChars_eq_foldl, digitValue] using ofDigitChars_le_of_prefix hfirst

theorem isDigit_of_mem_repr {k : Nat} {d : Char} (h : d ∈ (Nat.repr k).toList) :
    d.isDigit = true := by
  rw [Nat.toList_repr] at h
  exact Nat.isDigit_of_mem_toDigits (by decide) (by decide) h

theorem dollar_not_mem_repr (k : Nat) : '$' ∉ (Nat.repr k).toList :=
  fun h => absurd (isDigit_of_mem_repr h) (by decide)

theorem argumentNumber?_eq_some {n i : Nat} {digits : List Char}
    (h : argumentNumber? n digits = some i) : i < n ∧ (Nat.repr i).toList = digits := by
  unfold argumentNumber? at h
  dsimp only at h
  split at h
  · next hnumber => exact Option.some.inj h ▸ hnumber
  · cases h

/-- Where a place is, the text has it, and goes on with no digit. -/
theorem placeAt?_eq_some {n i : Nat} {c : Char} {t : List Char} (h : placeAt? n (c :: t) = some i) :
    i < n ∧ c :: t = placeholder i ++ t.drop (Nat.repr i).length ∧
      ∀ d, (t.drop (Nat.repr i).length).head? = some d → d.isDigit = false := by
  unfold placeAt? at h
  split at h
  · next t' heq =>
    cases heq
    obtain ⟨hlt, hdigits⟩ := argumentNumber?_eq_some h
    have hsplit : t = (Nat.repr i).toList ++ t.dropWhile Char.isDigit := by
      rw [hdigits, List.takeWhile_append_dropWhile]
    have hdrop : t.drop (Nat.repr i).length = t.dropWhile Char.isDigit := by
      rw [← String.length_toList]
      nth_rewrite 1 [hsplit]
      exact List.drop_left
    rw [hdrop]
    refine ⟨hlt, by rw [placeholder, List.cons_append, ← hsplit], fun d hd => ?_⟩
    have hnot := List.head?_dropWhile_not Char.isDigit t
    rw [hd] at hnot
    simpa using hnot
  · cases h

/-! ### Parts of a template -/

/-- The parts of a template make the template, if nothing is put into its places. -/
theorem render_templatePartsFrom (n m : Nat) (t : List Char) :
    render placeholder (templatePartsFrom n m t) = t.drop m := by
  fun_induction templatePartsFrom n m t with
  | case1 m => simp
  | case2 m c t ih => rw [ih, List.drop_succ_cons]
  | case3 c t i hi ih =>
    rw [render_cons, ih, TemplatePart.text, List.drop_zero]
    exact (placeAt?_eq_some hi).2.1.symm
  | case4 c t hnone ih => simp [ih, TemplatePart.text]

theorem lt_of_mem_templateParts {n m i : Nat} {t : List Char}
    (h : .place i ∈ templatePartsFrom n m t) : i < n := by
  fun_induction templatePartsFrom n m t with
  | case1 m => cases h
  | case2 m c t ih => exact ih h
  | case3 c t j hj ih =>
    rcases List.mem_cons.mp h with heq | h
    · obtain rfl : i = j := TemplatePart.place.inj heq
      exact (placeAt?_eq_some hj).1
    · exact ih h
  | case4 c t hnone ih =>
    rcases List.mem_cons.mp h with heq | h
    · cases heq
    · exact ih h

/-- A place takes all digits behind its `$`. -/
def TemplatePart.ends : TemplatePart → TemplatePart → Bool
  | .place _, .char d => !d.isDigit
  | _, _ => true

theorem head?_templatePartsFrom {n m : Nat} {t : List Char} {d : Char}
    (h : (templatePartsFrom n m t).head? = some (.char d)) : (t.drop m).head? = some d := by
  fun_induction templatePartsFrom n m t with
  | case1 m => cases h
  | case2 m c t ih => exact ih h
  | case3 c t i hi ih => cases h
  | case4 c t hnone ih =>
    cases h
    rfl

theorem isChain_ends (n m : Nat) (t : List Char) :
    (templatePartsFrom n m t).IsChain (TemplatePart.ends · ·) := by
  fun_induction templatePartsFrom n m t with
  | case1 m => exact .nil
  | case2 m c t ih => exact ih
  | case3 c t i hi ih =>
    refine List.isChain_cons.mpr ⟨fun q hq => ?_, ih⟩
    cases q with
    | place j => rfl
    | char d =>
      have hdigit := (placeAt?_eq_some hi).2.2 d (head?_templatePartsFrom hq)
      simp [TemplatePart.ends, hdigit]
  | case4 c t hnone ih => exact List.isChain_cons.mpr ⟨fun q _ => by cases q <;> rfl, ih⟩

/-! ### One pass -/

/-- No occurrence of a pattern begins in one text and ends in the next one. -/
def Uncut (p u v : List Char) : Prop :=
  ∀ p₁ p₂, p = p₁ ++ p₂ → p₁ ≠ [] → p₂ ≠ [] → p₁ <:+ u → ¬ p₂ <+: v

theorem replaceFrom_append {p r v : List Char} {m : Nat} {u : List Char} (h : Uncut p u v)
    (hm : m ≤ u.length) :
    replaceFrom p r m (u ++ v) = replaceFrom p r m u ++ replaceFrom p r 0 v := by
  induction u generalizing m with
  | nil =>
    obtain rfl : m = 0 := Nat.le_zero.mp hm
    cases v <;> simp [replaceFrom]
  | cons c u ih =>
    have htail : Uncut p u v := fun p₁ p₂ hp h₁ h₂ hsuffix =>
      h p₁ p₂ hp h₁ h₂ (hsuffix.trans (List.suffix_cons c u))
    cases m with
    | succ m => exact ih htail (Nat.le_of_succ_le_succ hm)
    | zero =>
      -- an occurrence at the first character ends before the second text begins
      have hoccurs : p.isPrefixOf (c :: (u ++ v)) = p.isPrefixOf (c :: u) := by
        rw [Bool.eq_iff_iff, List.isPrefixOf_iff_prefix, List.isPrefixOf_iff_prefix,
          ← List.cons_append]
        constructor
        · intro hp
          rcases List.prefix_or_prefix_of_prefix hp (List.prefix_append (c :: u) v) with
            hp | ⟨p₂, rfl⟩
          · exact hp
          · cases p₂ with
            | nil => simp
            | cons d p₂ =>
              exact absurd ((List.prefix_append_right_inj _).mp hp)
                (h _ _ rfl (List.cons_ne_nil _ _) (List.cons_ne_nil _ _) (List.suffix_refl _))
        · exact fun hp => hp.trans (List.prefix_append _ _)
      rw [List.cons_append, replaceFrom, replaceFrom, hoccurs]
      split
      · next hp =>
        have hlength := (List.isPrefixOf_iff_prefix.mp hp).length_le
        rw [List.length_cons] at hlength
        rw [ih htail (by omega), List.append_assoc]
      · rw [ih htail (Nat.zero_le _), List.cons_append]

/-- A pass over two texts is made over each of them, if no occurrence is cut. -/
theorem replaceAll_append {p r u v : List Char} (h : Uncut p u v) :
    replaceAll p r (u ++ v) = replaceAll p r u ++ replaceAll p r v :=
  replaceFrom_append h (Nat.zero_le _)

theorem replaceFrom_length (p r : List Char) (t : List Char) : replaceFrom p r t.length t = [] := by
  induction t with
  | nil => rfl
  | cons c t ih => exact ih

theorem replaceAll_self {r : List Char} (p : List Char) (hp : p ≠ []) : replaceAll p r p = r := by
  cases p with
  | nil => exact absurd rfl hp
  | cons c p =>
    have hself : (c :: p).isPrefixOf (c :: p) = true :=
      List.isPrefixOf_iff_prefix.mpr (List.prefix_refl _)
    rw [replaceAll, replaceFrom, if_pos hself, List.length_cons, Nat.add_sub_cancel,
      replaceFrom_length, List.append_nil]

theorem replaceAll_cons_stays {p r : List Char} {c : Char} {t : List Char}
    (h : ¬ p <+: c :: t) : replaceAll p r (c :: t) = c :: replaceAll p r t := by
  rw [← List.isPrefixOf_iff_prefix] at h
  rw [replaceAll, replaceFrom, if_neg h]
  rfl

theorem placeholder_ne_nil (k : Nat) : placeholder k ≠ [] := List.cons_ne_nil _ _

/-- A pass changes nothing in a text without a `$`. -/
theorem replaceAll_of_dollar_not_mem {k : Nat} {r t : List Char} (h : '$' ∉ t) :
    replaceAll (placeholder k) r t = t := by
  induction t with
  | nil => rfl
  | cons c t ih =>
    rw [List.mem_cons, not_or] at h
    rw [replaceAll_cons_stays, ih h.2]
    exact fun hp => h.1 (List.cons_prefix_cons.mp hp).1

/-- A pass leaves the places of smaller numbers as they are. -/
theorem replaceAll_placeholder_of_lt {j k : Nat} (h : j < k) (r : List Char) :
    replaceAll (placeholder k) r (placeholder j) = placeholder j := by
  unfold placeholder
  rw [replaceAll_cons_stays, ← placeholder,
    replaceAll_of_dollar_not_mem (dollar_not_mem_repr j)]
  intro hp
  have hle := le_of_repr_prefix (List.cons_prefix_cons.mp hp).2
  omega

/-- A text has no place for the first `n` arguments: where a digit stands behind a `$`, it does not
begin the number of one of them. -/
def quiet (n : Nat) : List Char → Bool
  | [] => true
  | c :: t => (c != '$' || t.head?.all fun d => !d.isDigit || n ≤ digitValue d) && quiet n t

theorem quiet_zero (t : List Char) : quiet 0 t = true := by
  induction t with
  | nil => rfl
  | cons c t ih => cases t.head? <;> simp [quiet, ih]

theorem replaceAll_of_quiet {n k : Nat} (hk : k < n) {t : List Char} (h : quiet n t = true)
    (r : List Char) : replaceAll (placeholder k) r t = t := by
  induction t with
  | nil => rfl
  | cons c t ih =>
    rw [quiet, Bool.and_eq_true] at h
    rw [replaceAll_cons_stays, ih h.2]
    intro hp
    obtain ⟨hc, hp⟩ := List.cons_prefix_cons.mp hp
    obtain ⟨d, ds, hrepr, hle⟩ := exists_repr_eq_cons k
    obtain ⟨rest, hrest⟩ := hp
    rw [hrepr, List.cons_append] at hrest
    have hdigit : d.isDigit = true := isDigit_of_mem_repr (hrepr ▸ List.mem_cons_self)
    have hfirst := h.1
    simp only [← hc, ← hrest, bne_self_eq_false, List.head?_cons, Option.all_some, hdigit,
      Bool.not_true, Bool.false_or, decide_eq_true_eq] at hfirst
    omega

/-! ### All passes -/

theorem fillPlaces_concat (t : List Char) (as : List (List Char)) (a : List Char) :
    fillPlaces t (as ++ [a]) = fillPlaces (replaceAll (placeholder as.length) a t) as := by
  simp [fillPlaces, List.zipIdx_append]

/-- The pass with the highest number comes first. -/
theorem fillPlaces_take_succ {as : List (List Char)} {m : Nat} {a : List Char}
    (h : as[m]? = some a) (t : List Char) :
    fillPlaces t (as.take (m + 1)) = fillPlaces (replaceAll (placeholder m) a t) (as.take m) := by
  obtain ⟨hm, rfl⟩ := List.getElem?_eq_some_iff.mp h
  rw [List.take_succ_eq_append_getElem hm, fillPlaces_concat,
    List.length_take_of_le (Nat.le_of_lt hm)]

theorem fillPlaces_of_quiet {as : List (List Char)} {n : Nat} (hn : as.length ≤ n) {t : List Char}
    (h : quiet n t = true) : fillPlaces t as = t := by
  induction as using List.reverseRecOn with
  | nil => rfl
  | append_singleton as a ih =>
    rw [List.length_append, List.length_singleton] at hn
    rw [fillPlaces_concat, replaceAll_of_quiet (by omega) h, ih (by omega)]

/-- What comes into a place is the argument, in which the places of the arguments before it are
filled. -/
theorem fillPlaces_placeholder {as : List (List Char)} {i : Nat} {a : List Char}
    (h : as[i]? = some a) {m : Nat} (him : i < m) (hm : m ≤ as.length) :
    fillPlaces (placeholder i) (as.take m) = fillPlaces a (as.take i) := by
  induction m with
  | zero => omega
  | succ m ih =>
    obtain ⟨b, hb⟩ : ∃ b, as[m]? = some b := ⟨_, List.getElem?_eq_getElem (by omega)⟩
    rw [fillPlaces_take_succ hb]
    rcases Nat.lt_or_ge i m with hlt | hge
    · rw [replaceAll_placeholder_of_lt hlt, ih hlt (by omega)]
    · obtain rfl : i = m := by omega
      rw [Option.some.inj (hb.symm.trans h), replaceAll_self _ (placeholder_ne_nil i)]

end ViewLint
