import ViewLint.Proofs.Binding.Places
import ViewLint.Proofs.Script.Runs
import ViewLint.Script.Accept

/-!
# Members of literals stand in order

The grammar answers an object literal in two places only: where it reads one, and where it reads an
expression in parentheses.  Everywhere else the answer is something else, or what has been read
before.  Parsers only move forward, so the keys of the members stand one behind the other, inside
the brackets of the literal and of the parentheses around it.

## Main definitions

* `Reader.brackets`, `Expr.Sorted` — the members of a literal stand one behind the other, inside its
  brackets.
* `Expr.Stays`, `Plain` — what has been read before, or no literal.
* `Rules.Sorted` — rules that answer literals in order.

## Main results

* `Script.sits_propertyKey`, `Script.sits_property` — keys and members.
* `Script.sorted_assignment` — one level of the grammar, from the level below.
* `Rules.sorted_level` — all levels.
* `inOrder_grammar` — the members of the literal around a payload.
* `method_is_no_expression` — the value of a method is no expression.
-/

namespace ViewLint.Script

open ViewLint.Script.Parser

variable {g : Rules} {m : Mode} {r r' s s' : Reader}

/-! ### Keys and members in their places -/

theorem Key.Sits.widen {key : Key} {i i' j j' : Nat} (h : key.Sits i' j') (hi : i ≤ i')
    (hj : j' ≤ j) : key.Sits i j :=
  ⟨Nat.le_trans hi h.1, h.2.1, Nat.le_trans h.2.2 hj⟩

/-- A member stands where its key does. -/
theorem Key.Sits.property {key : Key} {x : Property} {i j : Nat} (h : key.Sits i j)
    (hx : x.key? = some key) : x.Sits i j := by
  obtain ⟨hstart, hwidth, hstop⟩ := h
  refine ⟨by omega, fun key' heq => ?_⟩
  rw [hx] at heq
  cases heq
  exact ⟨hstart, hwidth, hstop⟩

/-- Reading on to a member changes nothing. -/
theorem Property.Sits.behind {x : Property} (h : x.Sits s.start r'.last) (hs : r.Reaches s) :
    x.Sits r.start r'.last :=
  ⟨Nat.le_trans hs.start_le h.1, fun key heq => (h.2 key heq).widen hs.start_le (Nat.le_refl _)⟩

/-- The number of brackets around the members of a literal that begins here, at the least. -/
def Reader.brackets (r : Reader) : Nat := if r.lexeme = .symbol "(" then 2 else 1

theorem Reader.one_le_brackets (r : Reader) : 1 ≤ r.brackets := by
  unfold brackets
  split <;> omega

/-- An expression that has been read from one place to another has its members one behind the other
inside its brackets, if it is a literal. -/
def Expr.Sorted (r : Reader) (e : Expr) (r' : Reader) : Prop :=
  ∀ members, objectMembers? e = some members →
    Row Property.Sits (r'.last - r.brackets) (r.start + r.brackets) members

theorem Expr.sorted_of_eq_none {e : Expr} (h : objectMembers? e = .none) : e.Sorted r r' := by
  intro members hmembers
  rw [h] at hmembers
  cases hmembers

/-- Reading on behind an expression changes nothing. -/
theorem Expr.Sorted.read {e : Expr} (h : e.Sorted r s) (hs : s.Reaches r') : e.Sorted r r' := by
  intro members hmembers
  have hlast := hs.last_le
  exact (h members hmembers).widen (Nat.le_refl _) (by omega)

/-- An expression is a given one, or no literal. -/
def Expr.Stays (e e' : Expr) : Prop := e' = e ∨ objectMembers? e' = .none

theorem Expr.Sorted.stays {e e' : Expr} (h : e.Sorted r r') (he : e.Stays e') : e'.Sorted r r' := by
  rcases he with rfl | hnone
  · exact h
  · exact sorted_of_eq_none hnone

/-- A parser that never answers a literal. -/
def Plain (p : Parser Expr) : Prop := p.Answers (objectMembers? · = .none)

theorem sorted_of_plain {p : Parser Expr} {e : Expr} (h : p.Runs r e r') (hp : Plain p) :
    e.Sorted r r' :=
  Expr.sorted_of_eq_none (hp h)

/-- Rules that answer literals with their members in order. -/
structure Rules.Sorted (g : Rules) : Prop where
  assignment : ∀ {m typed r e r'}, (g.assignment m typed).Runs r e r' → e.Sorted r r'
  creation : ∀ m, Plain (g.creation m)

/-! ### Members -/

/-- A key of one lexeme has the characters of the lexeme. -/
theorem sits_lexemeKey {label : Label} {key : Key}
    (hwidth : ∀ stop, (Key.mk label false r.start stop).width ≤ r.lexeme.width)
    (h : (do
      advance
      return ⟨label, false, r.start, ← behind⟩ : Parser Key).Runs r key r') :
    key.Sits r.start r'.last := by
  obtain ⟨u, s, hadvance, h⟩ := runs_bind h
  obtain ⟨stop, t, hbehind, h⟩ := runs_bind h
  obtain ⟨rfl, rfl⟩ := runs_behind hbehind
  obtain ⟨rfl, rfl⟩ := runs_pure h
  have hlast := hadvance.width_le
  exact ⟨Nat.le_refl _, Nat.le_trans (Nat.add_le_add_left (hwidth _) _) hlast, Nat.le_refl _⟩

/-- A key begins at the lexeme at hand and ends where reading it ends. -/
theorem sits_propertyKey {key : Key} (h : (propertyKey g m).Runs r key r') :
    key.Sits r.start r'.last := by
  obtain ⟨start, s, hhere, h⟩ := runs_bind h
  obtain ⟨rfl, rfl⟩ := runs_here hhere
  obtain ⟨l, s, hpeek, h⟩ := runs_bind h
  obtain ⟨hl, rfl⟩ := runs_peek hpeek
  split at h
  · exact sits_lexemeKey (fun _ => by rw [hl]; exact Nat.le_refl 1) h
  · exact sits_lexemeKey (fun _ => by rw [hl]; exact Nat.le_refl 2) h
  · exact sits_lexemeKey (fun _ => Nat.zero_le _) h
  · -- an expression in brackets
    obtain ⟨u, s, hadvance, h⟩ := runs_bind h
    obtain ⟨e, s₁, hassignment, h⟩ := runs_bind h
    obtain ⟨u, s₂, hclose, h⟩ := runs_bind h
    obtain ⟨stop, t, hbehind, h⟩ := runs_bind h
    obtain ⟨rfl, rfl⟩ := runs_behind hbehind
    obtain ⟨rfl, rfl⟩ := runs_pure h
    have hwidth := hadvance.width_le
    have hlast := (hassignment.reaches.trans hclose.reaches).last_le
    exact ⟨Nat.le_refl _, Nat.le_trans (Nat.le_add_right _ _) (Nat.le_trans hwidth hlast),
      Nat.le_refl _⟩
  · exact absurd h not_runs_reject

theorem key?_method {key : Key} : (method g m key).Answers (·.key? = some key) :=
  answers_bind fun _ => answers_bind fun _ => answers_bind fun _ => answers_pure rfl

theorem key?_memberRest {key : Key} : (memberRest g m key).Answers (·.key? = some key) := by
  refine answers_bind fun _ => answers_ite key?_method (answers_bind fun _ => answers_ite ?_ ?_)
  · exact answers_bind fun _ => answers_bind fun _ => answers_bind fun _ => answers_pure rfl
  · split
    · refine answers_bind fun _ => answers_bind fun _ => answers_ite ?_ ?_
      · exact answers_bind fun _ => answers_pure rfl
      · exact answers_pure rfl
    · exact answers_reject

/-- An accessor has the key that stands first in it. -/
theorem sits_accessor {allowed : Parameters → Bool} {x : Property}
    (h : (accessor g m allowed).Runs r x r') : x.Sits r.start r'.last := by
  obtain ⟨key, s, hkey, h⟩ := runs_bind h
  have hlast := h.reaches.last_le
  obtain ⟨start, s₁, -, h⟩ := runs_bind h
  obtain ⟨found, s₂, -, h⟩ := runs_bind h
  obtain ⟨u, s₃, -, h⟩ := runs_bind h
  obtain ⟨stop, t, -, h⟩ := runs_bind h
  obtain ⟨rfl, rfl⟩ := runs_pure h
  exact ((sits_propertyKey hkey).widen (Nat.le_refl _) hlast).property rfl

/-- A member has the key that stands first in it, behind a star if there is one. -/
theorem sits_keyed {isAsync : Bool} {x : Property}
    (h : (do
      let isGenerator ← eat "*"
      let key ← propertyKey g m
      if isAsync || isGenerator then method g (.function isAsync isGenerator) key
      else memberRest g m key : Parser Property).Runs r x r') :
    x.Sits r.start r'.last := by
  obtain ⟨b, s, heat, h⟩ := runs_bind h
  refine .behind ?_ heat.reaches
  obtain ⟨key, s₁, hkey, h⟩ := runs_bind h
  have hlast := h.reaches.last_le
  have hx : x.key? = some key := answers_ite key?_method key?_memberRest h
  exact ((sits_propertyKey hkey).widen (Nat.le_refl _) hlast).property hx

/-- A member is read from where its first lexeme begins to where its last one ends. -/
theorem sits_property {x : Property} (h : (property g m).Runs r x r') : x.Sits r.start r'.last := by
  obtain ⟨b, s, heat, h⟩ := runs_bind h
  split at h
  · next hb =>
    rw [hb] at heat
    have hlast := h.reaches.last_le
    rcases runs_eat heat with ⟨-, -, hadvance⟩ | ⟨hfalse, -⟩
    · have hwidth := hadvance.width_le
      obtain ⟨e, t, -, h⟩ := runs_bind h
      obtain ⟨rfl, -⟩ := runs_pure h
      refine ⟨by omega, ?_⟩
      rintro _ ⟨⟩
    · cases hfalse
  · refine .behind ?_ heat.reaches
    obtain ⟨⟨next, ended⟩, s₁, hfollowing, h⟩ := runs_bind h
    refine .behind ?_ hfollowing.reaches
    obtain ⟨b, s₂, hget, h⟩ := runs_bind h
    obtain ⟨-, rfl⟩ := runs_at? hget
    split at h
    · obtain ⟨u, t, hadvance, h⟩ := runs_bind h
      exact (sits_accessor h).behind hadvance.reaches
    · obtain ⟨b, s₂, hset, h⟩ := runs_bind h
      obtain ⟨-, rfl⟩ := runs_at? hset
      split at h
      · obtain ⟨u, t, hadvance, h⟩ := runs_bind h
        exact (sits_accessor h).behind hadvance.reaches
      · obtain ⟨b, s₂, hasync, h⟩ := runs_bind h
        obtain ⟨-, rfl⟩ := runs_at? hasync
        dsimp only at h
        split at h
        · obtain ⟨u, t, hadvance, h⟩ := runs_bind h
          exact (sits_keyed h).behind hadvance.reaches
        · exact sits_keyed h

/-! ### Literals -/

/-- A literal has its members inside its braces. -/
theorem sorted_object {e : Expr} (h : (object g m).Runs r e r')
    (hr : r.lexeme = .symbol braceOpen) : e.Sorted r r' := by
  obtain ⟨s, s', h, hstart, hstop⟩ := runs_enclosed h
  obtain ⟨⟨members, trailing⟩, t, hmembers, h⟩ := runs_bind h
  obtain ⟨rfl, rfl⟩ := runs_pure h
  have hrow := row_separated (P := Property.Sits)
    (fun r x r' hx => ⟨(sits_property hx).1, sits_property hx⟩) hmembers
  have hbrackets : r.brackets = 1 := by
    rw [Reader.brackets, hr]
    rfl
  rintro _ ⟨⟩
  exact hrow.widen (by omega) (by omega)

theorem sorted_expression {e : Expr} (hg : g.Sorted) (h : (expression g m).Runs r e r') :
    e.Sorted r r' := by
  obtain ⟨first, s, hfirst, h⟩ := runs_bind h
  refine ((hg.assignment hfirst).read h.reaches).stays ?_
  -- behind a comma the expression is no literal any more
  refine answers_iterate (I := first.Stays) ?_ (.inl rfl) h
  intro e he
  refine answers_bind fun _ => answers_ite ?_ ?_
  · exact answers_bind fun _ => answers_pure (.inr rfl)
  · exact answers_pure he

/-- Parentheses are brackets around the literal in them, which has brackets of its own. -/
theorem sorted_parenthesised {e : Expr} (hg : g.Sorted) (h : (parenthesised g m).Runs r e r') :
    e.Sorted r r' := by
  obtain ⟨s, s', h, hstart, hstop⟩ := runs_enclosed h
  obtain ⟨inner, t, hinner, h⟩ := runs_bind h
  obtain ⟨rfl, rfl⟩ := runs_pure h
  intro members hmembers
  have hrow := sorted_expression hg hinner members hmembers
  have hbrackets := s.one_le_brackets
  have hlast := last_le_start t
  have hle : r.brackets ≤ 2 := by
    unfold Reader.brackets
    split <;> omega
  exact hrow.widen (by omega) (by omega)

/-! ### Operands -/

theorem plain_other {α : Type} {p : Parser α} : Plain (p >>= fun _ => pure .other) :=
  answers_bind fun _ => answers_pure rfl

theorem plain_template {tagged : Bool} : Plain (template g m tagged) := plain_other

theorem plain_functionExpression {isAsync : Bool} : Plain (functionExpression g isAsync) := by
  refine answers_bind fun _ => answers_bind fun _ => answers_bind fun _ => answers_ite ?_ ?_
  · exact answers_bind fun _ => plain_other
  · exact plain_other

theorem plain_importExpression : Plain (importExpression g m) := by
  refine answers_bind fun _ => answers_bind fun _ => answers_ite ?_ ?_
  · exact plain_other
  · exact answers_bind fun _ => answers_pure rfl

theorem plain_array : Plain (array g m) := by
  intro r e r' h
  obtain ⟨s, s', h, -, -⟩ := runs_enclosed h
  obtain ⟨found, t, -, h⟩ := runs_bind h
  obtain ⟨rfl, -⟩ := runs_pure h
  rfl

theorem plain_slash : Plain primary.slash := answers_bind fun _ => plain_other

theorem plain_wordOperand {w : String} {escaped : Bool} :
    Plain (do
      if ["this", "null", "true", "false"].contains w then
        require !escaped
        advance
        return .other
      else
        let (next, ended) ← following
        if w == "async" && !escaped && isSymbol "function" next && !ended then
          advance
          functionExpression g true
        else
          let _ ← identifier m
          return .name) := by
  refine answers_ite ?_ ?_
  · exact answers_bind fun _ => plain_other
  · refine answers_bind fun _ => answers_ite ?_ ?_
    · exact answers_bind fun _ => plain_functionExpression
    · exact answers_bind fun _ => answers_pure rfl

/-- The literals among the operands are those in braces, and those in parentheses. -/
theorem sorted_primary {e : Expr} (hg : g.Sorted) (h : (primary g m).Runs r e r') :
    e.Sorted r r' := by
  obtain ⟨l, s, hpeek, h⟩ := runs_bind h
  obtain ⟨hl, rfl⟩ := runs_peek hpeek
  split at h
  · exact sorted_of_plain h plain_other
  · exact sorted_of_plain h (answers_bind fun _ => answers_pure rfl)
  · exact sorted_of_plain h plain_template
  · exact sorted_parenthesised hg h
  · exact sorted_of_plain h plain_array
  · exact sorted_object h hl
  · exact sorted_of_plain h plain_slash
  · exact sorted_of_plain h plain_slash
  · exact sorted_of_plain h (answers_bind fun _ => plain_other)
  · exact sorted_of_plain h plain_functionExpression
  · exact sorted_of_plain h plain_other
  · exact sorted_of_plain h (hg.creation m)
  · exact sorted_of_plain h plain_importExpression
  · exact sorted_of_plain h (answers_bind fun _ => answers_bind fun _ => plain_other)
  · exact sorted_of_plain h plain_wordOperand
  · exact absurd h not_runs_reject

/-- An operand with accesses or calls is no literal, and without any it is the operand. -/
theorem stays_access {calls : Bool} {start : Expr} :
    (access g m calls start).Answers start.Stays := by
  refine answers_iterate (I := fun x => start.Stays x.1) ?_ (.inl rfl)
  rintro ⟨e, inChain⟩ he
  have hfinish : (pure (access.finish e inChain) : Parser ((Expr × Bool) ⊕ Expr)).Answers
      (Sum.elim (fun x => start.Stays x.1) start.Stays) := by
    refine answers_pure ?_
    change start.Stays (if inChain then .chain else e)
    split
    · exact .inr rfl
    · exact he
  refine answers_bind fun r => ?_
  dsimp only
  split
  · exact answers_bind fun _ => answers_bind fun _ => answers_pure (.inr rfl)
  · refine answers_bind fun _ => answers_bind fun _ => answers_bind fun l => ?_
    split
    · exact answers_bind fun _ => answers_pure (.inr rfl)
    · exact answers_bind fun _ => answers_pure (.inr rfl)
    · exact answers_bind fun _ => answers_bind fun _ => answers_pure (.inr rfl)
    · exact answers_bind fun _ => answers_pure (.inr rfl)
  · exact answers_bind fun _ => answers_pure (.inr rfl)
  · exact answers_ite hfinish (answers_bind fun _ => answers_pure (.inr rfl))
  · exact answers_bind fun _ => answers_bind fun _ => answers_pure (.inr rfl)
  · refine answers_bind fun found => ?_
    cases found with
    | some _ => exact answers_pure (.inr rfl)
    | none => exact hfinish
  · exact answers_ite hfinish (answers_bind fun _ => answers_pure (.inr rfl))
  · exact hfinish

theorem sorted_operand {e : Expr} (hg : g.Sorted) (h : (operand g m).Runs r e r') :
    e.Sorted r r' := by
  obtain ⟨start, s, hstart, h⟩ := runs_bind h
  exact ((sorted_primary hg hstart).read h.reaches).stays (stays_access h)

theorem plain_creation : Plain (creation g m) := by
  refine answers_bind fun _ => answers_bind fun _ => answers_ite ?_ ?_
  · exact plain_other
  · refine answers_bind fun _ => answers_bind fun e => ?_
    split
    · exact answers_reject
    · refine answers_bind fun _ => answers_ite ?_ ?_
      · exact plain_other
      · exact answers_pure rfl

theorem sorted_update {e : Expr} (hg : g.Sorted) (h : (update g m).Runs r e r') :
    e.Sorted r r' := by
  obtain ⟨b, s, hat, h⟩ := runs_bind h
  obtain rfl := runs_atAny hat
  split at h
  · exact sorted_of_plain h (answers_bind fun _ => answers_bind fun _ => plain_other)
  · obtain ⟨e', s, hoperand, h⟩ := runs_bind h
    refine ((sorted_operand hg hoperand).read h.reaches).stays ?_
    refine answers_bind (fun _ => answers_bind fun _ => answers_ite ?_ ?_) h
    · exact answers_bind fun _ => answers_bind fun _ => answers_pure (.inr rfl)
    · exact answers_pure (.inl rfl)

theorem sorted_unary {e : Expr} (hg : g.Sorted) (h : (unary g m).Runs r e r') : e.Sorted r r' := by
  obtain ⟨b, s, hat, h⟩ := runs_bind h
  obtain rfl := runs_atAny hat
  have hsigned : Plain (do
      advance
      let _ ← g.unary m
      return .signed) := answers_bind fun _ => answers_bind fun _ => answers_pure rfl
  split at h
  · exact sorted_of_plain h hsigned
  · obtain ⟨b, s, hat, h⟩ := runs_bind h
    obtain ⟨-, rfl⟩ := runs_at? hat
    split at h
    · exact sorted_of_plain h hsigned
    · obtain ⟨b, s, hat, h⟩ := runs_bind h
      obtain ⟨-, rfl⟩ := runs_at? hat
      split at h
      · exact sorted_of_plain h (answers_bind fun _ => answers_bind fun _ => answers_pure rfl)
      · exact sorted_update hg h

/-! ### Operators -/

theorem objectMembers?_of_join? {operator : Lexeme} {left right e : Expr}
    (h : join? operator left right = some e) : objectMembers? e = .none := by
  unfold join? at h
  split at h
  · split at h <;> cases h <;> rfl
  · split at h
    · cases h
      rfl
    · split at h
      · split at h <;> cases h
        rfl
      · cases h
        rfl

theorem sorted_leftmost {e : Expr} (hg : g.Sorted) (h : (leftmost g m).Runs r e r') :
    e.Sorted r r' := by
  obtain ⟨l, s, hpeek, h⟩ := runs_bind h
  obtain ⟨-, rfl⟩ := runs_peek hpeek
  split at h
  · exact sorted_of_plain h
      (answers_bind fun _ => answers_bind fun _ => answers_bind fun _ => plain_other)
  · exact sorted_unary hg h

theorem sorted_binary {least : Nat} {e : Expr} (hg : g.Sorted)
    (h : (binary g m least).Runs r e r') : e.Sorted r r' := by
  obtain ⟨first, s, hfirst, h⟩ := runs_bind h
  refine ((sorted_leftmost hg hfirst).read h.reaches).stays ?_
  refine answers_iterate (I := first.Stays) ?_ (.inl rfl) h
  intro left hleft
  refine answers_bind fun _ => ?_
  extract_lets rest
  have hrest : ∀ u, (rest u).Answers (Sum.elim first.Stays first.Stays) := by
    intro u
    refine answers_bind fun r => ?_
    split
    · exact answers_pure hleft
    · refine answers_ite (answers_pure hleft) (answers_ite ?_ ?_)
      · refine answers_ite (answers_pure hleft) ?_
        exact answers_bind fun _ => answers_bind fun _ => answers_pure (.inr rfl)
      · refine answers_bind fun _ => answers_bind fun right => ?_
        split
        · next e he => exact answers_pure (.inr (objectMembers?_of_join? he))
        · exact answers_reject
  exact answers_ite (answers_bind hrest) (hrest ())

/-! ### Assignments -/

/-- Where there is no arrow function, nothing is read. -/
theorem runs_arrow {typed : Bool} (h : (arrow g m typed).Runs r false r') : r = r' := by
  obtain ⟨guess, s, hguess, h⟩ := runs_bind h
  obtain ⟨found, t, hlookahead, hguess⟩ := runs_bind hguess
  obtain rfl := runs_lookahead hlookahead
  obtain ⟨-, rfl⟩ := runs_pure hguess
  cases guess with
  | no => exact (runs_pure h).2
  | yes =>
    obtain ⟨head, s, -, h⟩ := runs_bind h
    obtain ⟨u, s, -, h⟩ := runs_bind h
    cases (runs_pure h).1
  | maybe =>
    obtain ⟨found, s, hattempt, h⟩ := runs_bind h
    cases found with
    | some u => cases (runs_pure h).1
    | none =>
      obtain rfl := runs_attempt hattempt
      exact (runs_pure h).2

theorem plain_yielded : Plain (yielded g m) := by
  refine answers_bind fun _ => answers_bind fun _ => answers_ite ?_ (answers_pure rfl)
  refine answers_bind fun _ => answers_bind fun _ => answers_bind fun _ => answers_ite ?_ ?_
  · exact plain_other
  · exact answers_pure rfl

theorem stays_assignmentRest {typed : Bool} {left : Expr} :
    (assignmentRest g m typed left).Answers left.Stays := by
  refine answers_bind fun l => answers_ite ?_ (answers_ite ?_ ?_)
  · exact answers_bind fun _ => answers_bind fun _ => answers_bind fun _ => answers_bind fun _ =>
      answers_pure (.inr rfl)
  · exact answers_bind fun _ => answers_bind fun _ => answers_bind fun _ => answers_bind fun _ =>
      answers_pure (.inr rfl)
  · refine answers_bind fun _ => answers_ite ?_ (answers_pure (.inl rfl))
    exact answers_bind fun _ => answers_bind fun _ => answers_bind fun _ => answers_pure (.inr rfl)

/-- An expression is no literal, or operands with what follows them. -/
theorem runs_assignment {typed : Bool} {e : Expr} (h : (assignment g m typed).Runs r e r') :
    objectMembers? e = none ∨ ∃ left s, (binary g m 0).Runs r left s ∧
      (assignmentRest g m typed left).Runs s e r' := by
  obtain ⟨b, s, hat, h⟩ := runs_bind h
  obtain ⟨-, rfl⟩ := runs_at? hat
  split at h
  · exact .inl (plain_yielded h)
  · obtain ⟨b, s, harrow, h⟩ := runs_bind h
    split at h
    · obtain ⟨rfl, -⟩ := runs_pure h
      exact .inl rfl
    · next hb =>
      rw [Bool.not_eq_true] at hb
      rw [hb] at harrow
      obtain rfl := runs_arrow harrow
      obtain ⟨b, s, hasync, h⟩ := runs_bind h
      obtain ⟨found, t, hlookahead, hasync⟩ := runs_bind hasync
      obtain rfl := runs_lookahead hlookahead
      obtain ⟨-, rfl⟩ := runs_pure hasync
      split at h
      · exact .inl ((answers_bind fun _ => answers_bind fun _ => answers_bind fun _ =>
          answers_bind fun _ => answers_bind fun _ => plain_other : Plain _) h)
      · exact .inr (runs_bind h)

/-- One level of the grammar answers literals in order if the level below does. -/
theorem sorted_assignment {typed : Bool} {e : Expr} (hg : g.Sorted)
    (h : (assignment g m typed).Runs r e r') : e.Sorted r r' := by
  rcases runs_assignment h with hnone | ⟨left, s, hleft, hrest⟩
  · exact Expr.sorted_of_eq_none hnone
  · exact ((sorted_binary hg hleft).read hrest.reaches).stays (stays_assignmentRest hrest)

/-! ### All levels -/

/-- If all levels answer literals in order, so do the rules that choose among them. -/
theorem Rules.sorted_byDepth {levels : Nat → Rules} (h : ∀ n, (levels n).Sorted) :
    (Rules.byDepth levels).Sorted :=
  ⟨fun hrun => (h _).assignment hrun, fun m _ _ _ hrun => (h _).creation m hrun⟩

theorem Rules.sorted_level (n : Nat) : (Rules.level n).Sorted := by
  induction n using Nat.strongRecOn with
  | ind n ih =>
    cases n with
    | zero =>
      rw [Rules.level]
      exact ⟨fun h => absurd h not_runs_reject, fun _ => answers_reject⟩
    | succ n =>
      rw [Rules.level]
      have hbelow := sorted_byDepth fun k => ih (min n k) (by omega)
      exact ⟨sorted_assignment hbelow, fun _ => plain_creation⟩

theorem lex?_parenthesis (t : List Char) :
    lex? ('(' :: t) = some ⟨.symbol "(", false, '(' :: t, t⟩ :=
  rfl

theorem ofText_parenthesis {t : List Char} (h : Reader.ofText ('(' :: t) = some r) :
    r.total = t.length + 1 ∧ r.start = 0 ∧ r.brackets = 2 := by
  unfold Reader.ofText at h
  obtain ⟨found, hfound, h⟩ := Option.bind_eq_some_iff.mp h
  rw [lex?_parenthesis] at hfound
  cases hfound
  split at h
  · cases h
    exact ⟨rfl, Nat.sub_self _, rfl⟩
  · cases h

theorem expression?_of_expression {t : List Char} {e : Expr}
    (h : ScriptParser.expression t = .ok e) :
    expression? t = some e := by
  change (expression? t).elim (Except.error Option.none) Except.ok = .ok e at h
  cases hread : expression? t with
  | none =>
    rw [hread] at h
    cases h
  | some e' =>
    rw [hread] at h
    cases h
    rfl

/-- The grammar finds the members of a payload one behind the other.  The payload stands behind two
brackets and before two others. -/
theorem inOrder_grammar : ScriptParser.InOrder := by
  intro t e members h hmembers
  replace h := expression?_of_expression h
  unfold expression? at h
  obtain ⟨r, hr, h⟩ := Option.bind_eq_some_iff.mp h
  obtain ⟨⟨e', r', hreach⟩, hrun, h⟩ := Option.bind_eq_some_iff.mp h
  obtain ⟨-, h⟩ := Option.ite_none_right_eq_some.mp h
  cases h
  obtain ⟨htotal, hstart, hbrackets⟩ := ofText_parenthesis hr
  have hrow :=
    sorted_expression (Rules.sorted_byDepth Rules.sorted_level) ⟨hreach, hrun⟩ members hmembers
  rw [hstart, hbrackets] at hrow
  -- what has been read ends in the text
  have hlast := last_le_start r'
  have hle : r'.start ≤ t.length + 4 := by
    refine Nat.le_trans (Nat.sub_le _ _) (Nat.le_of_eq ?_)
    rw [hreach.total_eq, htotal]
    simp [payloadStop]
  exact hrow.widen (by omega) (by omega)

/-! ### Methods -/

/-- The value of a method begins with its parameters, and is no expression. -/
theorem method_is_no_expression :
    (parsePayload "view.html" ⟨default, "x(a) \x7b return a \x7d"⟩).toOption.map
      (·.map fun b => (b.handler.value, b.expression.text)) =
        some [("x", "(a) \x7b return a \x7d")] ∧
    (parsePayload "view.html" ⟨default, "x: " ++ "(a) \x7b return a \x7d"⟩).toOption = none := by
  decide +kernel

end ViewLint.Script
