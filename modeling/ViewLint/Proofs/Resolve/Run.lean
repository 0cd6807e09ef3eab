import ViewLint.Resolve.Basic

/-!
# Reasoning about resolutions

A resolution asks a type checker, and it ends as soon as a request fails.  What it does is
described by two conditions: one on the answer and the state when it succeeds, and one on the
failure and the state that is left behind when it does not.

## Main definitions

* `Oracle.failure?` — the failure of a request, if it fails.
* `Resolving.Ensures` — what holds after a computation, whichever way it ends.
* `Engine.compiled`, `Engine.asked` — the states after a request has been answered.

## Main results

* `Resolving.ensures_compile`, `Resolving.ensures_inspect`, `Resolving.ensures_findings` — the
  requests.
-/

namespace ViewLint

variable {U α β : Type}

/-- The failure of a request, if it fails. -/
def Oracle.failure? (o : Oracle U) : Call U → Option OracleError
  | .compile source previous =>
    match o.compile source previous with
    | .ok _ => none
    | .error f => some f
  | .inspect unit names =>
    match o.inspect unit names with
    | .ok _ => none
    | .error f => some f
  | .findings unit =>
    match o.findings unit with
    | .ok _ => none
    | .error f => some f

namespace Engine

/-- The state after a request has been made. -/
def asked (e : Engine U) (call : Call U) : Engine U := { e with calls := e.calls ++ [call] }

/-- The state after the program has been committed and compiled. -/
def compiled (e : Engine U) (unit : U) : Engine U := { e.commit.2 with unit := some unit }

end Engine

namespace Resolving

/-- What a computation leads to: `Q` holds of its answer and the state behind it, or `F` of the
failure that ends it and the state that is left. -/
def Ensures (m : Resolving U α) (e : Engine U) (Q : α → Engine U → Prop)
    (F : OracleError → Engine U → Prop) : Prop :=
  match m.run.run e with
  | (.ok a, e') => Q a e'
  | (.error f, e') => F f e'

variable {e : Engine U} {Q : α → Engine U → Prop} {F : OracleError → Engine U → Prop}

theorem ensures_pure {a : α} (h : Q a e) : Ensures (pure a) e Q F := h

theorem Ensures.bind {m : Resolving U α} {k : α → Resolving U β} {R : β → Engine U → Prop}
    (h : Ensures m e (fun a e' => Ensures (k a) e' R F) F) : Ensures (m >>= k) e R F := by
  have hrun : (m >>= k).run.run e =
      match m.run.run e with
      | (.ok a, e') => (k a).run.run e'
      | (.error f, e') => (.error f, e') := by
    simp only [ExceptT.run_bind, StateT.run_bind]
    cases hm : m.run.run e with
    | mk r e' => cases r <;> rfl
  unfold Ensures at h ⊢
  rw [hrun]
  cases hm : m.run.run e with
  | mk r e' =>
    rw [hm] at h
    cases r with
    | ok a => exact h
    | error f => exact h

theorem Ensures.mono {m : Resolving U α} {Q' : α → Engine U → Prop}
    {F' : OracleError → Engine U → Prop} (h : Ensures m e Q F) (hQ : ∀ a e', Q a e' → Q' a e')
    (hF : ∀ f e', F f e' → F' f e') : Ensures m e Q' F' := by
  unfold Ensures at h ⊢
  cases hm : m.run.run e with
  | mk r e' =>
    rw [hm] at h
    cases r with
    | ok a => exact hQ a e' h
    | error f => exact hF f e' h

/-- What a computation that succeeds leads to. -/
theorem Ensures.of_ok {m : Resolving U α} (h : Ensures m e Q F) {a : α}
    (ha : (m.run.run e).1 = .ok a) : Q a (m.run.run e).2 := by
  unfold Ensures at h
  generalize m.run.run e = run at h ha
  obtain ⟨result, e'⟩ := run
  cases ha
  exact h

/-- What holds in any case holds after every computation. -/
theorem ensures_of_forall {m : Resolving U α} (hQ : ∀ a e', Q a e') (hF : ∀ f e', F f e') :
    Ensures m e Q F := by
  unfold Ensures
  split
  · exact hQ _ _
  · exact hF _ _

theorem ensures_get {Q : Engine U → Engine U → Prop} (h : Q e e) :
    Ensures (get : Resolving U (Engine U)) e Q F := h

theorem ensures_modify {g : Engine U → Engine U} {Q : PUnit → Engine U → Prop}
    (h : Q ⟨⟩ (g e)) : Ensures (modify g : Resolving U PUnit) e Q F := h

theorem ensures_modifyGet {g : Engine U → α × Engine U} (h : Q (g e).1 (g e).2) :
    Ensures (modifyGet g : Resolving U α) e Q F := h

/-- What a call has given is passed on. -/
theorem ensures_ofCall {r : Except OracleError α} (hok : ∀ a, r = .ok a → Q a e)
    (herror : ∀ f, r = .error f → F f e) : Ensures (ofCall r) e Q F := by
  cases r with
  | ok a => exact hok a rfl
  | error f => exact herror f rfl

/-! ### Requests -/

theorem ensures_compile {o : Oracle U} {Q : Unit → Engine U → Prop}
    (hok : ∀ unit, o.compile e.probe.commit.1 e.unit = .ok unit → Q () (e.compiled unit))
    (herror : ∀ f, o.compile e.probe.commit.1 e.unit = .error f → F f e.commit.2) :
    Ensures (compile o) e Q F := by
  unfold compile
  refine Ensures.bind (ensures_modifyGet ?_)
  refine Ensures.bind (ensures_ofCall ?_ herror)
  intro unit hunit
  exact ensures_modify (hok unit hunit)

theorem ensures_currentUnit {unit : U} (hunit : e.unit = some unit)
    {Q : U → Engine U → Prop} (h : Q unit e) : Ensures currentUnit e Q F := by
  unfold currentUnit
  refine Ensures.bind (ensures_get ?_)
  rw [hunit]
  exact ensures_pure h

theorem ensures_inspect {o : Oracle U} {unit : U} (hunit : e.unit = some unit)
    {names : List String} {Q : List (String × Shape) → Engine U → Prop}
    (hok : ∀ shapes, o.inspect unit names = .ok shapes →
      Q shapes (e.asked (.inspect unit names)))
    (herror : ∀ f, o.inspect unit names = .error f → F f (e.asked (.inspect unit names))) :
    Ensures (inspect o names) e Q F := by
  unfold inspect
  refine Ensures.bind (ensures_currentUnit hunit ?_)
  refine Ensures.bind (ensures_modify ?_)
  exact ensures_ofCall hok herror

theorem ensures_findings {o : Oracle U} {unit : U} (hunit : e.unit = some unit)
    {Q : List Finding → Engine U → Prop}
    (hok : ∀ found, o.findings unit = .ok found → Q found (e.asked (.findings unit)))
    (herror : ∀ f, o.findings unit = .error f → F f (e.asked (.findings unit))) :
    Ensures (findings o) e Q F := by
  unfold findings
  refine Ensures.bind (ensures_currentUnit hunit ?_)
  refine Ensures.bind (ensures_modify ?_)
  exact ensures_ofCall hok herror

end Resolving

end ViewLint
