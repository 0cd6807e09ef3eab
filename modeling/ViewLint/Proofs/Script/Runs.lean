import Mathlib.Tactic.Common
import ViewLint.Proofs.Markup.Cursors
import ViewLint.Script.Parser

/-!
# Runs of parsers

A parser as a relation: from one place of a script it answers, and stands at another place then.
For each way to put parsers together there is one lemma that takes a run apart into runs of the
parts.

## Main definitions

* `Parser.Runs` — a parser answers at a place, and stands at another one.
* `Parser.Answers` — all answers of a parser have a property.

## Main results

* `Parser.runs_bind` — one parser after the other.
* `Parser.runs_advance`, `Parser.runs_expect` — reading on, and where that leads.
* `Parser.runs_iterate` — what every round keeps, all rounds keep.
* `Parser.row_separated` — items between commas stand one behind the other.
-/

namespace ViewLint.Script

namespace Parser

variable {α β σ : Type} {r r' s : Reader}

/-- A parser answers at a place, and stands at another one then. -/
def Runs (p : Parser α) (r : Reader) (a : α) (r' : Reader) : Prop := ∃ h, p r = some (a, ⟨r', h⟩)

theorem Runs.reaches {p : Parser α} {a : α} (h : p.Runs r a r') : r.Reaches r' := h.1

/-! ### One parser after the other -/

theorem runs_pure {a b : α} (h : (pure a : Parser α).Runs r b r') : a = b ∧ r = r' := by
  obtain ⟨hreach, h⟩ := h
  cases h
  exact ⟨rfl, rfl⟩

theorem runs_bind {p : Parser α} {f : α → Parser β} {b : β} (h : (p >>= f).Runs r b r') :
    ∃ a s, p.Runs r a s ∧ (f a).Runs s b r' := by
  obtain ⟨hreach, h⟩ := h
  change p.next f r = _ at h
  unfold next at h
  split at h
  · cases h
  · next a s hs hp =>
    split at h
    · cases h
    · next b t ht hf =>
      cases h
      exact ⟨a, s, ⟨hs, hp⟩, ht, hf⟩

theorem not_runs_reject {a : α} : ¬(reject : Parser α).Runs r a r' := by
  rintro ⟨hreach, h⟩
  cases h

theorem runs_require {b : Bool} {u : Unit} (h : (require b).Runs r u r') : b = true ∧ r = r' := by
  unfold require at h
  split at h
  · next hb => exact ⟨hb, (runs_pure h).2⟩
  · exact absurd h not_runs_reject

/-! ### Looking -/

theorem runs_look {a : Reader} (h : look.Runs r a r') : r = a ∧ r = r' := by
  obtain ⟨hreach, h⟩ := h
  cases h
  exact ⟨rfl, rfl⟩

theorem runs_peek {l : Lexeme} (h : peek.Runs r l r') : r.lexeme = l ∧ r = r' := by
  obtain ⟨a, s, hlook, h⟩ := runs_bind h
  obtain ⟨rfl, rfl⟩ := runs_look hlook
  exact runs_pure h

theorem runs_here {n : Nat} (h : here.Runs r n r') : r.start = n ∧ r = r' := by
  obtain ⟨a, s, hlook, h⟩ := runs_bind h
  obtain ⟨rfl, rfl⟩ := runs_look hlook
  exact runs_pure h

theorem runs_behind {n : Nat} (h : behind.Runs r n r') : r.last = n ∧ r = r' := by
  obtain ⟨a, s, hlook, h⟩ := runs_bind h
  obtain ⟨rfl, rfl⟩ := runs_look hlook
  exact runs_pure h

theorem runs_at? {symbol : String} {b : Bool} (h : (at? symbol).Runs r b r') :
    isSymbol symbol r.lexeme = b ∧ r = r' := by
  obtain ⟨l, s, hpeek, h⟩ := runs_bind h
  obtain ⟨rfl, rfl⟩ := runs_peek hpeek
  exact runs_pure h

theorem runs_atAny {symbols : List String} {b : Bool} (h : (atAny symbols).Runs r b r') :
    r = r' := by
  obtain ⟨l, s, hpeek, h⟩ := runs_bind h
  obtain ⟨rfl, rfl⟩ := runs_peek hpeek
  exact (runs_pure h).2

theorem runs_lookahead {p : Parser α} {a : Option α} (h : (lookahead p).Runs r a r') : r = r' := by
  obtain ⟨hreach, h⟩ := h
  cases h
  rfl

/-- A parser that is tried in vain reads nothing. -/
theorem runs_attempt {p : Parser α} (h : (attempt p).Runs r none r') : r = r' := by
  obtain ⟨hreach, h⟩ := h
  unfold attempt at h
  split at h
  · cases h
  · cases h
    rfl

/-! ### Reading on -/

/-- Behind a lexeme, the place of which ends where the next one begins at the earliest. -/
theorem runs_advance {u : Unit} (h : advance.Runs r u r') : r'.last = r.stop := by
  obtain ⟨hreach, h⟩ := h
  unfold advance at h
  obtain ⟨x, hx, h⟩ := Option.map_eq_some_iff.mp h
  cases h
  obtain ⟨found, -, h⟩ := Option.bind_eq_some_iff.mp hx
  split at h
  · cases h
    rfl
  · cases h

theorem last_le_start (r : Reader) : r.last ≤ r.start := r.last_le

/-- What is between the places before and behind a lexeme has its characters. -/
theorem Runs.width_le {u : Unit} (h : advance.Runs r u r') :
    r.start + r.lexeme.width ≤ r'.last := by
  rw [runs_advance h]
  exact r.start_add_width_le

theorem runs_eat {symbol : String} {b : Bool} (h : (eat symbol).Runs r b r') :
    b = true ∧ isSymbol symbol r.lexeme = true ∧ advance.Runs r () r' ∨ b = false ∧ r = r' := by
  obtain ⟨c, s, hat, h⟩ := runs_bind h
  obtain ⟨rfl, rfl⟩ := runs_at? hat
  split at h
  · next hsymbol =>
    obtain ⟨u, s, hadvance, h⟩ := runs_bind h
    obtain ⟨rfl, rfl⟩ := runs_pure h
    exact .inl ⟨rfl, hsymbol, hadvance⟩
  · obtain ⟨rfl, rfl⟩ := runs_pure h
    exact .inr ⟨rfl, rfl⟩

theorem runs_expect {symbol : String} {u : Unit} (h : (expect symbol).Runs r u r') :
    isSymbol symbol r.lexeme = true ∧ advance.Runs r () r' := by
  obtain ⟨b, s, heat, h⟩ := runs_bind h
  obtain ⟨hb, rfl⟩ := runs_require h
  rw [hb] at heat
  rcases runs_eat heat with ⟨-, hsymbol, hadvance⟩ | ⟨hfalse, -⟩
  · exact ⟨hsymbol, hadvance⟩
  · cases hfalse

/-- A symbol or a reserved word has a character. -/
theorem width_pos_of_isSymbol {symbol : String} {l : Lexeme} (h : isSymbol symbol l = true) :
    l.width = 1 := by
  cases l with
  | symbol text => rfl
  | word text escaped => rfl
  | _ => cases h

/-- A symbol that is read has a character. -/
theorem Runs.lt_last {symbol : String} {u : Unit} (h : (expect symbol).Runs r u r') :
    r.start + 1 ≤ r'.last := by
  obtain ⟨hsymbol, hadvance⟩ := runs_expect h
  have hwidth := hadvance.width_le
  rwa [width_pos_of_isSymbol hsymbol] at hwidth

/-! ### Repetition -/

/-- What every round keeps holds when the rounds end. -/
theorem runs_repeated {step : σ → Parser (σ ⊕ α)} {I : σ → Reader → Prop} {P : α → Reader → Prop}
    (hstep : ∀ x r y r', I x r → (step x).Runs r y r' →
      match y with | .inl x' => I x' r' | .inr a => P a r')
    (fuel : Nat) {x : σ} {a : α} (hx : I x r) (h : (repeated step fuel x).Runs r a r') :
    P a r' := by
  induction fuel generalizing r x with
  | zero => exact absurd h not_runs_reject
  | succ fuel ih =>
    obtain ⟨y, s, hrun, h⟩ := runs_bind h
    have hy := hstep x r y s hx hrun
    cases y with
    | inl x' => exact ih hy h
    | inr a' =>
      obtain ⟨rfl, rfl⟩ := runs_pure h
      exact hy

theorem runs_iterate {step : σ → Parser (σ ⊕ α)} {I : σ → Reader → Prop} {P : α → Reader → Prop}
    (hstep : ∀ x r y r', I x r → (step x).Runs r y r' →
      match y with
      | .inl x' => I x' r'
      | .inr a => P a r')
    {x : σ} {a : α} (hx : I x r) (h : (iterate step x).Runs r a r') : P a r' := by
  obtain ⟨l, s, hlook, h⟩ := runs_bind h
  obtain ⟨rfl, rfl⟩ := runs_look hlook
  exact runs_repeated hstep _ hx h

/-! ### Answers -/

/-- All answers of a parser have a property. -/
def Answers (p : Parser α) (Q : α → Prop) : Prop := ∀ ⦃r a r'⦄, p.Runs r a r' → Q a

variable {Q : α → Prop}

theorem answers_pure {a : α} (h : Q a) : (pure a : Parser α).Answers Q := by
  intro r b r' hrun
  obtain ⟨rfl, -⟩ := runs_pure hrun
  exact h

theorem answers_bind {p : Parser β} {f : β → Parser α} (h : ∀ b, (f b).Answers Q) :
    (p >>= f).Answers Q := by
  intro r a r' hrun
  obtain ⟨b, s, -, hrun⟩ := runs_bind hrun
  exact h b hrun

theorem answers_reject : (reject : Parser α).Answers Q :=
  fun _ _ _ hrun => absurd hrun not_runs_reject

theorem answers_ite {c : Prop} [Decidable c] {p q : Parser α} (hp : p.Answers Q)
    (hq : q.Answers Q) : (if c then p else q).Answers Q := by
  split
  · exact hp
  · exact hq

theorem answers_iterate {step : σ → Parser (σ ⊕ α)} {I : σ → Prop}
    (hstep : ∀ x, I x → (step x).Answers (Sum.elim I Q)) {x : σ} (hx : I x) :
    (iterate step x).Answers Q := by
  intro r a r' h
  refine runs_iterate (I := fun x _ => I x) (P := fun a _ => Q a) ?_ hx h
  intro x r y r' hx hrun
  have hy := hstep x hx hrun
  cases y with
  | inl x' => exact hy
  | inr a => exact hy

/-! ### Items -/

/-- A parser between two symbols, each of which has a character. -/
theorem runs_enclosed {opening closing : String} {p : Parser α} {a : α}
    (h : (enclosed opening closing p).Runs r a r') :
    ∃ s s', p.Runs s a s' ∧ r.start + 1 ≤ s.start ∧ s'.start + 1 ≤ r'.last := by
  obtain ⟨u, s, hopen, h⟩ := runs_bind h
  obtain ⟨a', s', hp, h⟩ := runs_bind h
  obtain ⟨u', t, hclose, h⟩ := runs_bind h
  obtain ⟨rfl, rfl⟩ := runs_pure h
  exact ⟨s, s', hp, Nat.le_trans hopen.lt_last (last_le_start s), hclose.lt_last⟩

/-- Items between commas stand one behind the other. -/
theorem row_separated {close : String} {item : Parser α} {P : α → Nat → Nat → Prop}
    (hitem : ∀ r a r', item.Runs r a r' → r.start ≤ r'.last ∧ P a r.start r'.last)
    {found : List α × Bool} (h : (separated close item).Runs r found r') :
    Row P r'.start r.start found.1 := by
  obtain ⟨b, s, hat, h⟩ := runs_bind h
  obtain ⟨-, rfl⟩ := runs_at? hat
  split at h
  · obtain ⟨rfl, rfl⟩ := runs_pure h
    exact Nat.le_refl _
  · obtain ⟨first, s₁, hfirst, h⟩ := runs_bind h
    obtain ⟨hle, hP⟩ := hitem _ _ _ hfirst
    -- the items so far are a row that ends where the last of them ended
    refine Row.widen (runs_iterate (I := fun found s => Row P s.last r.start found.reverse)
      (P := fun found s => Row P s.last r.start found.1) ?_ ?_ h) (Nat.le_refl _) (last_le_start r')
    · intro found s y s' hrow hrun
      obtain ⟨b, s₂, hat, hrun⟩ := runs_bind hrun
      obtain ⟨-, rfl⟩ := runs_at? hat
      split at hrun
      · obtain ⟨rfl, rfl⟩ := runs_pure hrun
        exact hrow
      · obtain ⟨u, s₃, hcomma, hrun⟩ := runs_bind hrun
        have hrow' := hrow.widen (Nat.le_refl _) hcomma.reaches.last_le
        obtain ⟨b, s₄, hat, hrun⟩ := runs_bind hrun
        obtain ⟨-, rfl⟩ := runs_at? hat
        split at hrun
        · obtain ⟨rfl, rfl⟩ := runs_pure hrun
          exact hrow'
        · obtain ⟨a, s₅, ha, hrun⟩ := runs_bind hrun
          obtain ⟨rfl, rfl⟩ := runs_pure hrun
          obtain ⟨hle, hP⟩ := hitem _ _ _ ha
          dsimp only
          rw [List.reverse_cons]
          exact hrow'.append ⟨_, _, last_le_start _, hle, hP, Nat.le_refl _⟩
    · exact ⟨_, _, Nat.le_refl _, hle, hP, Nat.le_refl _⟩

end Parser

end ViewLint.Script
