import Mathlib.Data.List.Infix
import ViewLint.Proofs.Markup.Comments

/-!
# Lexical elements of directives

The text of a directive is made of words, marks of punctuation and texts in quotes, with blanks
before, between and behind them.  A word is a longest run of the characters of a name, so that two
words have something between them, and it does not matter to a reader what stands behind an element.
Each step of reading a directive takes the next element if it is the one that is looked for, and
only skips blanks otherwise.  For every step there are two lemmas: it takes what is there, and what
it has taken is there.

## Main definitions

* `Markup.IsName` — the texts that are names.
* `Markup.Lexeme`, `Markup.Lexeme.Spelled` — the elements and how they are written.
* `Markup.Spells` — a text is written with some elements.
* `Markup.Takes` — some elements have been taken between two places.

## Main results

* `Markup.spells_blanks_iff` — blanks around a text do not matter.
* `Markup.eat_mark`, `Markup.eatWord_word`, `Markup.identifier_word`, `Markup.quotedString_quoted`,
  `Markup.finished_nil` — what is there is taken.
* `Markup.takes_eat`, `Markup.takes_eatWord`, `Markup.takes_identifier`,
  `Markup.takes_quotedString`, `Markup.spells_of_finished` — what has been taken is there.
-/

namespace ViewLint.Markup

open Text

variable {s : Source} {c c' : Cursor}

/-! ### Names -/

/-- A character that can begin a name, and others that can continue it. -/
def IsName (n : List Char) : Prop :=
  ∃ x t, n = x :: t ∧ isNameStart x = true ∧ ∀ y ∈ t, isNamePart y = true

theorem isNamePart_of_isNameStart {x : Char} (h : isNameStart x = true) : isNamePart x = true := by
  simp only [isNameStart, Bool.or_eq_true] at h
  simp only [isNamePart, Char.isAlphanum, Bool.or_eq_true]
  tauto

theorem isBlank_of_isNamePart {x : Char} (h : isNamePart x = true) : isBlank x = false := by
  have hrange : (48 ≤ x.toNat ∧ x.toNat ≤ 57) ∨ (65 ≤ x.toNat ∧ x.toNat ≤ 90) ∨
      (97 ≤ x.toNat ∧ x.toNat ≤ 122) ∨ x.toNat = 95 ∨ x.toNat = 36 := by
    delta isNamePart Char.isAlphanum Char.isAlpha Char.isUpper Char.isLower Char.isDigit at h
    simp only [Bool.or_eq_true, Bool.and_eq_true, decide_eq_true_eq, beq_iff_eq,
      UInt32.le_iff_toNat_le] at h
    rcases h with ((((h | h) | h) | rfl) | rfl)
    · exact .inr (.inl h)
    · exact .inr (.inr (.inl h))
    · exact .inl h
    · decide
    · decide
  simp only [isBlank, Bool.or_eq_false_iff, Bool.and_eq_false_iff, decide_eq_false_iff_not,
    beq_eq_false_iff_ne]
  omega

theorem IsName.isNamePart {n : List Char} (h : IsName n) : ∀ y ∈ n, isNamePart y = true := by
  obtain ⟨x, t, rfl, hx, ht⟩ := h
  intro y hy
  rcases List.mem_cons.mp hy with rfl | hy
  · exact isNamePart_of_isNameStart hx
  · exact ht y hy

/-- A name is the longest one that a text begins with, if the text does not go on with it. -/
theorem leadingName_append {n t : List Char} (hn : IsName n) (ht : Stops isNamePart t) :
    leadingName (n ++ t) = n := by
  obtain ⟨x, n, rfl, hx, hn⟩ := hn
  rw [List.cons_append, leadingName, if_pos hx, takeWhile_append_of_stops hn ht]

theorem leadingName_of_stops {t : List Char} (h : Stops isNameStart t) : leadingName t = [] := by
  cases t with
  | nil => rfl
  | cons x t => rw [leadingName, if_neg (by simp [stops_cons.mp h])]

/-- The longest name that a text begins with, and what follows it. -/
theorem exists_of_leadingName {t : List Char} (h : leadingName t ≠ []) :
    IsName (leadingName t) ∧ ∃ rest, t = leadingName t ++ rest ∧ Stops isNamePart rest := by
  cases t with
  | nil => exact absurd rfl h
  | cons x t =>
    rw [leadingName] at h ⊢
    split at h
    · next hx =>
      rw [if_pos hx]
      refine ⟨⟨x, _, rfl, hx, fun y hy => List.mem_takeWhile_imp hy⟩, t.dropWhile isNamePart, ?_,
        stops_dropWhile _ _⟩
      rw [List.cons_append, List.takeWhile_append_dropWhile]
    · exact absurd rfl h

/-! ### Elements -/

/-- A lexical element of a directive. -/
inductive Lexeme where
  /-- A name or a keyword. -/
  | word (name : List Char)
  /-- A mark of punctuation. -/
  | mark (c : Char)
  /-- A text in quotes. -/
  | quoted (text : List Char)
  deriving DecidableEq, Repr

/-- The marks of punctuation. -/
def marks : List Char := ['*', '\x7b', '\x7d', ',']

theorem of_mem_marks {m : Char} (h : m ∈ marks) :
    isBlank m = false ∧ isNameStart m = false ∧ m ≠ '\x22' ∧ m ≠ '\x27' := by
  simp only [marks, List.mem_cons, List.not_mem_nil, or_false] at h
  rcases h with rfl | rfl | rfl | rfl <;> decide

/-- How an element is written. -/
inductive Lexeme.Spelled : Lexeme → List Char → Prop
  | word {name : List Char} : IsName name → Spelled (.word name) name
  | mark {c : Char} : c ∈ marks → Spelled (.mark c) [c]
  /-- Both quotes are the same, and the text between them has none like them. -/
  | quoted {quote : Char} {text : List Char} : quote = '\x22' ∨ quote = '\x27' → quote ∉ text →
      Spelled (.quoted text) (quote :: (text ++ [quote]))

/-- An element ends before some text: a word goes as far as it can. -/
def Lexeme.EndsBefore : Lexeme → List Char → Prop
  | .word _, t => Stops isNamePart t
  | _, _ => True

/-- A text is written with some elements, and with blanks before, between and behind them. -/
inductive Spells : List Lexeme → List Char → Prop
  | nil {blanks : List Char} : (∀ y ∈ blanks, isBlank y = true) → Spells [] blanks
  | cons {blanks u t : List Char} {x : Lexeme} {xs : List Lexeme} :
      (∀ y ∈ blanks, isBlank y = true) → x.Spelled u → x.EndsBefore t → Spells xs t →
        Spells (x :: xs) (blanks ++ (u ++ t))

namespace Lexeme.Spelled

variable {x : Lexeme} {u : List Char}

/-- An element does not begin with a blank. -/
theorem stops_isBlank (h : x.Spelled u) (t : List Char) : Stops isBlank (u ++ t) := by
  cases h with
  | word hname =>
    obtain ⟨y, n, rfl, hy, -⟩ := hname
    exact stops_cons.mpr (isBlank_of_isNamePart (isNamePart_of_isNameStart hy))
  | mark hc => exact stops_cons.mpr (of_mem_marks hc).1
  | quoted hquote htext => rcases hquote with rfl | rfl <;> exact stops_cons.mpr (by decide)

/-- An element does not end with a blank. -/
theorem exists_last (h : x.Spelled u) : ∃ v y, u = v ++ [y] ∧ isBlank y = false := by
  cases h with
  | word hname =>
    have hne : u ≠ [] := by
      obtain ⟨y, n, rfl, -⟩ := hname
      exact List.cons_ne_nil _ _
    refine ⟨u.dropLast, u.getLast hne, (List.dropLast_concat_getLast hne).symm, ?_⟩
    exact isBlank_of_isNamePart (hname.isNamePart _ (List.getLast_mem hne))
  | mark hc => exact ⟨[], _, rfl, (of_mem_marks hc).1⟩
  | @quoted quote text hquote htext =>
    exact ⟨quote :: text, quote, rfl, by rcases hquote with rfl | rfl <;> decide⟩

end Lexeme.Spelled

/-- Every element takes a character at least. -/
theorem Spells.length_le {xs : List Lexeme} {t : List Char} (h : Spells xs t) :
    xs.length ≤ t.length := by
  induction h with
  | nil => exact Nat.zero_le _
  | cons hblanks hu hends ht ih =>
    obtain ⟨v, y, rfl, -⟩ := hu.exists_last
    simp only [List.length_append, List.length_cons, List.length_nil]
    omega

/-! ### Blanks around a text -/

section

variable {xs : List Lexeme} {t w : List Char}

theorem Spells.append_left (h : Spells xs t) (hw : ∀ y ∈ w, isBlank y = true) :
    Spells xs (w ++ t) := by
  cases h with
  | nil hblanks => exact .nil (List.forall_mem_append.mpr ⟨hw, hblanks⟩)
  | cons hblanks hu hends ht =>
    rw [← List.append_assoc]
    exact .cons (List.forall_mem_append.mpr ⟨hw, hblanks⟩) hu hends ht

/-- Blanks before a text do not matter. -/
theorem spells_dropWhile_iff : Spells xs (t.dropWhile isBlank) ↔ Spells xs t := by
  constructor
  · intro h
    have hall := h.append_left (fun y (hy : y ∈ t.takeWhile isBlank) => List.mem_takeWhile_imp hy)
    rwa [List.takeWhile_append_dropWhile] at hall
  · intro h
    cases h with
    | nil hblanks =>
      rw [List.dropWhile_eq_nil_iff.mpr hblanks]
      exact .nil (List.forall_mem_nil _)
    | @cons blanks u t x xs hblanks hu hends ht =>
      rw [List.dropWhile_append_of_pos hblanks, dropWhile_of_stops (hu.stops_isBlank t)]
      have hbare : Spells (x :: xs) ([] ++ (u ++ t)) := .cons (List.forall_mem_nil _) hu hends ht
      exact hbare

theorem Spells.append_right (h : Spells xs t) (hw : ∀ y ∈ w, isBlank y = true) :
    Spells xs (t ++ w) := by
  induction h with
  | nil hblanks => exact .nil (List.forall_mem_append.mpr ⟨hblanks, hw⟩)
  | @cons blanks u t x xs hblanks hu hends ht ih =>
    rw [List.append_assoc, List.append_assoc]
    refine .cons hblanks hu ?_ ih
    -- a word ends where the blanks begin, if there is nothing before them
    cases x with
    | mark m => trivial
    | quoted text => trivial
    | word name =>
      intro y hy
      cases t with
      | cons z t => exact hends y hy
      | nil =>
        have hblank := hw y (List.mem_of_mem_head? hy)
        by_contra hpart
        rw [isBlank_of_isNamePart (Bool.not_eq_false _ ▸ hpart)] at hblank
        cases hblank

theorem Spells.of_append_right (h : Spells xs (t ++ w)) (hw : ∀ y ∈ w, isBlank y = true) :
    Spells xs t := by
  generalize hv : t ++ w = v at h
  induction h generalizing t with
  | nil hblanks =>
    exact .nil fun y hy => hblanks y (hv ▸ List.mem_append_left _ hy)
  | @cons blanks u v x xs hblanks hu hends hrest ih =>
    -- an element does not end with a blank, so it ends before the blanks at the end
    have hinside : ∃ e, t = blanks ++ u ++ e ∧ v = e ++ w := by
      rw [← List.append_assoc] at hv
      rcases List.append_eq_append_iff.mp hv with ⟨e, hte, rfl⟩ | ⟨e, ht, hv⟩
      · obtain ⟨v', y, rfl, hy⟩ := hu.exists_last
        rcases List.eq_nil_or_concat e with rfl | ⟨e, z, rfl⟩
        · exact ⟨[], by simpa using hte.symm, rfl⟩
        · have hz := hw z (by simp)
          have hlast : y = z := by
            rw [List.concat_eq_append, ← List.append_assoc, ← List.append_assoc] at hte
            exact List.head_eq_of_cons_eq (List.append_inj' hte rfl).2
          rw [← hlast, hy] at hz
          cases hz
      · exact ⟨e, ht, hv⟩
    obtain ⟨e, rfl, rfl⟩ := hinside
    rw [List.append_assoc]
    refine .cons hblanks hu ?_ (ih rfl)
    cases x with
    | mark m => trivial
    | quoted text => trivial
    | word name => exact hends.of_append

/-- Blanks around a text do not matter. -/
theorem spells_blanks_iff {w' : List Char} (hw : ∀ y ∈ w, isBlank y = true)
    (hw' : ∀ y ∈ w', isBlank y = true) : Spells xs (w ++ (t ++ w')) ↔ Spells xs t := by
  rw [← spells_dropWhile_iff, List.dropWhile_append_of_pos hw, spells_dropWhile_iff]
  exact ⟨fun h => h.of_append_right hw', fun h => h.append_right hw'⟩

/-- The text behind the first word of a comment, with the blanks that the comment has around it. -/
theorem spells_trimEnd_iff : Spells xs (trimEnd (' ' :: (t ++ [' ']))) ↔ Spells xs t := by
  have hspace : ∀ y ∈ [' '], isBlank y = true := List.all_eq_true.mp (by decide)
  obtain ⟨blanks, hblanks, hsplit⟩ := exists_eq_trimEnd_append (' ' :: (t ++ [' ']))
  have hcut : Spells xs ([] ++ (trimEnd (' ' :: (t ++ [' '])) ++ blanks)) ↔
      Spells xs (trimEnd (' ' :: (t ++ [' ']))) :=
    spells_blanks_iff (List.forall_mem_nil _) hblanks
  rw [List.nil_append, ← hsplit] at hcut
  exact hcut.symm.trans (spells_blanks_iff hspace hspace)

end

/-! ### Reading elements -/

theorem reading_bind_of_ok {α β : Type} {f : Reading α} {g : α → Reading β} {a : α}
    (h : f c = .ok (a, c')) : (f >>= g) c = g a c' := by
  change (f c >>= fun y => g y.1 y.2) = g a c'
  rw [h]
  rfl

section

variable {x : Lexeme} {xs : List Lexeme}

/-- The next element stands behind the blanks ahead. -/
theorem exists_of_spells (h : Spells (x :: xs) c.rest) :
    ∃ u t, (c.skipWhile isBlank).rest = u ++ t ∧ x.Spelled u ∧ x.EndsBefore t ∧ Spells xs t := by
  rw [c.rest_skipWhile]
  generalize c.rest = r at h
  cases h with
  | @cons blanks u t x xs hblanks hu hends ht =>
    refine ⟨u, t, ?_, hu, hends, ht⟩
    rw [List.dropWhile_append_of_pos hblanks, dropWhile_of_stops (hu.stops_isBlank t)]

theorem spells_skipWhile_iff : Spells xs (c.skipWhile isBlank).rest ↔ Spells xs c.rest := by
  rw [c.rest_skipWhile, spells_dropWhile_iff]

/-- Between two places some elements have been taken: they stand before whatever is left. -/
def Takes (c : Cursor) (xs : List Lexeme) (c' : Cursor) : Prop :=
  ∀ ys, Spells ys c'.rest → Spells (xs ++ ys) c.rest

theorem Takes.trans {c₁ : Cursor} {ys : List Lexeme} (h : Takes c xs c₁) (h' : Takes c₁ ys c') :
    Takes c (xs ++ ys) c' := by
  intro zs hzs
  rw [List.append_assoc]
  exact h _ (h' zs hzs)

theorem takes_skipWhile (c : Cursor) : Takes c [] (c.skipWhile isBlank) :=
  fun _ hys => spells_skipWhile_iff.mp hys

theorem takes_of_reads {u : List Char} (hu : x.Spelled u) (hends : x.EndsBefore c'.rest)
    (hread : (c.skipWhile isBlank).Reads u c') : Takes c [x] c' := by
  intro ys hys
  rw [← spells_skipWhile_iff, hread.rest]
  have hbare : Spells (x :: ys) ([] ++ (u ++ c'.rest)) := .cons (List.forall_mem_nil _) hu hends hys
  exact hbare

/-! ### Marks -/

theorem spells_behind_mark {m : Char} (h : Spells (.mark m :: xs) c.rest) :
    (c.skipWhile isBlank).rest.head? = some m ∧ Spells xs ((c.skipWhile isBlank).drop 1).rest := by
  obtain ⟨u, t, hrest, hu, -, ht⟩ := exists_of_spells h
  cases hu
  rw [Cursor.drop, hrest]
  exact ⟨rfl, ht⟩

theorem eat_mark {m : Char} (h : Spells (.mark m :: xs) c.rest) :
    ∃ c', eat m c = .ok (true, c') ∧ Spells xs c'.rest := by
  obtain ⟨hhead, ht⟩ := spells_behind_mark h
  refine ⟨(c.skipWhile isBlank).drop 1, ?_, ht⟩
  rw [eat, skipBlanks_bind, get_bind, if_pos hhead]
  rfl

/-- The first character of an element tells marks from other elements, and one mark from another. -/
theorem eat_other {m : Char} (hm : m ∈ marks) (hx : x ≠ .mark m) (h : Spells (x :: xs) c.rest) :
    ∃ c', eat m c = .ok (false, c') ∧ Spells (x :: xs) c'.rest := by
  refine ⟨c.skipWhile isBlank, ?_, spells_skipWhile_iff.mpr h⟩
  obtain ⟨u, t, hrest, hu, -, -⟩ := exists_of_spells h
  rw [eat, skipBlanks_bind, get_bind, hrest, if_neg]
  · rfl
  · cases hu with
    | word hname =>
      obtain ⟨y, n, rfl, hy, -⟩ := hname
      rintro ⟨⟩
      rw [(of_mem_marks hm).2.1] at hy
      cases hy
    | mark hc =>
      rintro ⟨⟩
      exact hx rfl
    | quoted hquote =>
      rintro ⟨⟩
      exact hquote.elim (of_mem_marks hm).2.2.1 (of_mem_marks hm).2.2.2

theorem takes_eat {m : Char} (hm : m ∈ marks) {b : Bool} (h : eat m c = .ok (b, c')) :
    Takes c (if b then [.mark m] else []) c' := by
  rw [eat, skipBlanks_bind, get_bind] at h
  split at h
  · next hhead =>
    cases h
    exact takes_of_reads (.mark hm) trivial (Cursor.reads_head hhead)
  · cases h
    exact takes_skipWhile c

theorem expect_mark {m : Char} (h : Spells (.mark m :: xs) c.rest) :
    ∃ c', expect m c = .ok ((), c') ∧ Spells xs c'.rest := by
  obtain ⟨c', heat, hxs⟩ := eat_mark h
  refine ⟨c', ?_, hxs⟩
  rw [expect, reading_bind_of_ok heat]
  rfl

theorem takes_expect {m : Char} (hm : m ∈ marks) {u : Unit} (h : expect m c = .ok (u, c')) :
    Takes c [.mark m] c' := by
  obtain ⟨b, c₁, heat, h⟩ := reading_bind_eq_ok h
  cases b with
  | true =>
    cases h
    exact takes_eat hm heat
  | false => exact absurd h (stopDirective_ne_ok _ _ _)

/-! ### Words -/

/-- A word is taken if it is ahead as a whole name. -/
theorem eatWord_append {word : String} {t : List Char} (hword : IsName word.toList)
    (ht : Stops isNamePart t) (hrest : (c.skipWhile isBlank).rest = word.toList ++ t) :
    ∃ c', eatWord word c = .ok (true, c') ∧ c'.rest = t := by
  refine ⟨(c.skipWhile isBlank).drop word.length, ?_, ?_⟩
  · rw [eatWord, skipBlanks_bind, get_bind, hrest, if_pos (leadingName_append hword ht)]
    rfl
  · rw [Cursor.drop, hrest, ← String.length_toList, List.drop_left]

theorem eatWord_of_ne {word : String} (h : leadingName (c.skipWhile isBlank).rest ≠ word.toList) :
    eatWord word c = .ok (false, c.skipWhile isBlank) := by
  rw [eatWord, skipBlanks_bind, get_bind, if_neg h]
  rfl

theorem eatWord_word {word : String} (h : Spells (.word word.toList :: xs) c.rest) :
    ∃ c', eatWord word c = .ok (true, c') ∧ Spells xs c'.rest := by
  obtain ⟨u, t, hrest, hu, hends, ht⟩ := exists_of_spells h
  cases hu with
  | word hname =>
    obtain ⟨c', heat, rfl⟩ := eatWord_append hname hends hrest
    exact ⟨c', heat, ht⟩

/-- An element that is not the word stays ahead. -/
theorem eatWord_other {word : String} (hne : word.toList ≠ []) (hx : x ≠ .word word.toList)
    (h : Spells (x :: xs) c.rest) :
    ∃ c', eatWord word c = .ok (false, c') ∧ Spells (x :: xs) c'.rest := by
  refine ⟨c.skipWhile isBlank, eatWord_of_ne ?_, spells_skipWhile_iff.mpr h⟩
  obtain ⟨u, t, hrest, hu, hends, -⟩ := exists_of_spells h
  rw [hrest]
  cases hu with
  | word hname =>
    rw [leadingName_append hname hends]
    rintro rfl
    exact hx rfl
  | @mark m hc =>
    have hstops : Stops isNameStart ([m] ++ t) := stops_cons.mpr (of_mem_marks hc).2.1
    rw [leadingName_of_stops hstops]
    exact hne.symm
  | @quoted quote text hquote =>
    have hstops : Stops isNameStart (quote :: (text ++ [quote]) ++ t) :=
      stops_cons.mpr (by rcases hquote with rfl | rfl <;> decide)
    rw [leadingName_of_stops hstops]
    exact hne.symm

theorem takes_eatWord {word : String} (hne : word.toList ≠ []) {b : Bool}
    (h : eatWord word c = .ok (b, c')) : Takes c (if b then [.word word.toList] else []) c' := by
  rw [eatWord, skipBlanks_bind, get_bind] at h
  split at h
  · next hword =>
    cases h
    obtain ⟨hname, rest, hrest, hstops⟩ := exists_of_leadingName (hword.trans_ne hne)
    rw [hword] at hname hrest
    have hread :
        (c.skipWhile isBlank).Reads word.toList ((c.skipWhile isBlank).drop word.length) := by
      rw [← String.length_toList]
      exact Cursor.reads_of_prefix ⟨rest, hrest.symm⟩
    have hleft := List.append_cancel_left (hrest.symm.trans hread.rest)
    exact takes_of_reads (.word hname) (hleft ▸ hstops) hread
  · cases h
    exact takes_skipWhile c

theorem expectWord_word {word : String} (h : Spells (.word word.toList :: xs) c.rest) :
    ∃ c', expectWord word c = .ok ((), c') ∧ Spells xs c'.rest := by
  obtain ⟨c', heat, hxs⟩ := eatWord_word h
  refine ⟨c', ?_, hxs⟩
  rw [expectWord, reading_bind_of_ok heat]
  rfl

theorem takes_expectWord {word : String} (hne : word.toList ≠ []) {u : Unit}
    (h : expectWord word c = .ok (u, c')) : Takes c [.word word.toList] c' := by
  obtain ⟨b, c₁, heat, h⟩ := reading_bind_eq_ok h
  cases b with
  | true =>
    cases h
    exact takes_eatWord hne heat
  | false => exact absurd h (stopDirective_ne_ok _ _ _)

/-! ### Names and texts in quotes -/

/-- The value of a name is what has been read. -/
theorem value_ident {r : List Char} (hc : c.In s.text) (h : c.Reads r c') :
    (s.ident c.pos c'.pos).value = .ofList r := by
  have hle : c'.pos ≤ c'.stop := Nat.le_add_right _ _
  have hstands := stands_ident s h.reaches.pos_le (Nat.le_trans hle (hc.reads h).stop_le)
  exact hstands.text.trans (hc.stands h).text.symm

/-- A name is read as far as it goes. -/
theorem identifier_append {n t : List Char} (hc : c.In s.text) (hn : IsName n)
    (ht : Stops isNamePart t) (hrest : (c.skipWhile isBlank).rest = n ++ t) :
    ∃ i c', identifier s c = .ok (i, c') ∧ i.value = .ofList n ∧
      (c.skipWhile isBlank).Reads n c' := by
  have hskip := c.reaches_skipWhile isBlank
  have hread : (c.skipWhile isBlank).Reads n ((c.skipWhile isBlank).drop n.length) :=
    Cursor.reads_of_prefix ⟨t, hrest.symm⟩
  refine ⟨_, (c.skipWhile isBlank).drop n.length, ?_, value_ident (hc.reaches hskip) hread, hread⟩
  rw [identifier, skipBlanks_bind, get_bind, hrest, leadingName_append hn ht, hread.pos]
  obtain ⟨x, n, rfl, -⟩ := hn
  rfl

theorem exists_of_identifier (hc : c.In s.text) {i : Ident} (h : identifier s c = .ok (i, c')) :
    ∃ n, IsName n ∧ i.value = .ofList n ∧ (c.skipWhile isBlank).Reads n c' ∧
      Stops isNamePart c'.rest := by
  have hskip := c.reaches_skipWhile isBlank
  rw [identifier, skipBlanks_bind, get_bind] at h
  have hname := exists_of_leadingName (t := (c.skipWhile isBlank).rest)
  generalize leadingName (c.skipWhile isBlank).rest = n at h hname
  cases n with
  | nil => exact absurd h (stopDirective_ne_ok _ _ _)
  | cons x n =>
    cases h
    obtain ⟨hname, rest, hrest, hstops⟩ := hname (List.cons_ne_nil x n)
    have hread := Cursor.reads_of_prefix ⟨rest, hrest.symm⟩
    have hleft := List.append_cancel_left (hrest.symm.trans hread.rest)
    refine ⟨x :: n, hname, ?_, hread, hleft ▸ hstops⟩
    rw [← hread.pos]
    exact value_ident (hc.reaches hskip) hread

theorem identifier_word {n : List Char} (hc : c.In s.text) (h : Spells (.word n :: xs) c.rest) :
    ∃ i c', identifier s c = .ok (i, c') ∧ i.value = .ofList n ∧ Spells xs c'.rest := by
  obtain ⟨u, t, hrest, hu, hends, ht⟩ := exists_of_spells h
  cases hu with
  | word hname =>
    obtain ⟨i, c', hok, hvalue, hread⟩ := identifier_append hc hname hends hrest
    have hleft := List.append_cancel_left (hread.rest.symm.trans hrest)
    exact ⟨i, c', hok, hvalue, hleft ▸ ht⟩

/-- The name that has been read, which takes a character at least. -/
theorem takes_identifier (hc : c.In s.text) {i : Ident} (h : identifier s c = .ok (i, c')) :
    ∃ n, i.value = .ofList n ∧ Takes c [.word n] c' ∧ c'.rest.length < c.rest.length := by
  obtain ⟨n, hname, hvalue, hread, hstops⟩ := exists_of_identifier hc h
  refine ⟨n, hvalue, takes_of_reads (.word hname) hstops hread, ?_⟩
  have hle := (c.reaches_skipWhile isBlank).length_le
  obtain ⟨x, n, rfl, -⟩ := hname
  rw [hread.rest, List.cons_append, List.length_cons, List.length_append] at hle
  omega

/-- A character that a text does not have stands first behind it. -/
theorem indexOf?_singleton_append {x : Char} {u : List Char} (h : x ∉ u) (t : List Char) :
    indexOf? [x] (u ++ x :: t) = some u.length := by
  induction u with
  | nil => rw [List.nil_append, indexOf?, if_pos (by simp)]; rfl
  | cons y u ih =>
    obtain ⟨hy, hu⟩ := not_or.mp (List.mem_cons.not.mp h)
    rw [List.cons_append, indexOf?, if_neg (by simpa using hy), ih hu]
    rfl

theorem quotedString_quoted {text : List Char} (hc : c.In s.text)
    (h : Spells (.quoted text :: xs) c.rest) :
    ∃ i c', quotedString s c = .ok (i, c') ∧ i.value = .ofList text ∧ Spells xs c'.rest := by
  obtain ⟨u, t, hrest, hu, -, ht⟩ := exists_of_spells h
  cases hu with
  | @quoted quote _ hquote htext =>
    rw [List.cons_append, List.append_assoc, List.singleton_append] at hrest
    have hfirst := Cursor.reads_head (c := c.skipWhile isBlank) (x := quote) (by rw [hrest]; rfl)
    have hrest₁ :=
      List.append_cancel_left (hfirst.rest.symm.trans hrest : [quote] ++ _ = [quote] ++ _)
    have hread := Cursor.reads_of_prefix ⟨_, hrest₁.symm⟩
    have hin := (hc.reaches (c.reaches_skipWhile isBlank)).reads hfirst
    refine ⟨_, (c.skipWhile isBlank).drop (text.length + 2), ?_, value_ident hin hread, ?_⟩
    · rw [quotedString, skipBlanks_bind, get_bind, hrest]
      dsimp only
      rw [if_pos hquote, indexOf?_singleton_append htext, hread.pos, hfirst.pos]
      rfl
    · rw [Cursor.drop, hrest, List.drop_succ_cons]
      simpa using ht

theorem takes_quotedString (hc : c.In s.text) {i : Ident} (h : quotedString s c = .ok (i, c')) :
    ∃ text, i.value = .ofList text ∧ Takes c [.quoted text] c' := by
  obtain ⟨quote, rest, n, hrest, hquote, hn, rfl, rfl⟩ := exists_of_quotedString h
  have hfirst := Cursor.reads_head (c := c.skipWhile isBlank) (x := quote) (by rw [hrest]; rfl)
  have hrest₁ : ((c.skipWhile isBlank).drop 1).rest = rest :=
    List.append_cancel_left (hfirst.rest.symm.trans hrest : [quote] ++ _ = [quote] ++ _)
  have hin := (hc.reaches (c.reaches_skipWhile isBlank)).reads hfirst
  have htext := Cursor.reads_drop ((c.skipWhile isBlank).drop 1) n
  have hlast := reads_of_indexOf? (hrest₁ ▸ hn)
  have hle := (prefix_of_indexOf? hn).1
  refine ⟨rest.take n, ?_, ?_⟩
  · have hvalue := value_ident hin htext
    rw [htext.pos, hfirst.pos, hrest₁, List.length_take, Nat.min_eq_left hle] at hvalue
    exact hvalue
  · have hno : quote ∉ rest.take n := by
      rw [← List.singleton_infix_iff]
      exact not_infix_take_of_indexOf? (List.cons_ne_nil _ _) hn
    have hall := hfirst.trans hlast
    rw [hrest₁, Cursor.drop_drop, Nat.add_comm 1] at hall
    exact takes_of_reads (.quoted hquote hno) trivial hall

/-! ### The end of a directive -/

theorem finished_nil (h : Spells [] c.rest) : ∃ c', finished c = .ok ((), c') := by
  have hend : (c.skipWhile isBlank).rest = [] := by
    rw [c.rest_skipWhile]
    generalize c.rest = r at h
    cases h with
    | nil hblanks => exact List.dropWhile_eq_nil_iff.mpr hblanks
  refine ⟨c.skipWhile isBlank, ?_⟩
  rw [finished, skipBlanks_bind, get_bind, Cursor.atEnd, hend]
  rfl

theorem spells_of_finished {u : Unit} (h : finished c = .ok (u, c')) : Spells [] c.rest := by
  rw [finished, skipBlanks_bind, get_bind] at h
  split at h
  · exact absurd h (stopDirective_ne_ok _ _ _)
  · next hmore =>
    have hend : (c.skipWhile isBlank).rest = [] := by simpa [Cursor.atEnd] using hmore
    rw [← spells_skipWhile_iff, hend]
    exact .nil (List.forall_mem_nil _)

end

end ViewLint.Markup
