import ViewLint.Proofs.Resolve.Rounds
import ViewLint.Script.Accept

/-!
# What a resolution amounts to

Whatever the type checker answers, a resolution of a view that has been read assigns every
element the context that surrounds it.  It takes as many rounds as its elements are deep, and
its requests follow the protocol, up to the one that fails if there is one.

## Main definitions

* `ScopesRight` — the contexts in the outcome are those of the rules.

## Main results

* `resolve_scopes_right` — the outcome has the contexts that the rules give.
* `resolve_makes_progress` — every round resolves the elements of one level.
* `resolve_follows_protocol` — the requests follow the protocol.
-/

namespace ViewLint

variable {U : Type}

/-! ### The contexts of the outcome -/

/-- The contexts in the outcome are those of the rules, with the answers to the requests that
have been made. -/
structure ScopesRight (o : Oracle U) (d : Document) (calls : List (Call U)) (r : Resolved) :
    Prop where
  /-- Just the elements are assigned a context. -/
  assigned : ∀ n, (r.assignments.get? n).isSome ↔ (d.bindingNode? n).isSome
  /-- Just the elements hand a context to their content. -/
  handed : ∀ n, (r.outgoing.get? n).isSome ↔ (d.bindingNode? n).isSome
  /-- An element has the context that surrounds the content of its parent, and the rules leave
  no choice. -/
  assignment_iff : ∀ n p a, (d.bindingNode? n).isSome → d.parent? n = some p →
    (r.assignments.get? n = some a ↔ Surrounds d r.contexts r.outgoing p a)
  /-- The scope of every context that is assigned has been asked for, with one answer. -/
  scope : ∀ n c, r.assignments.get? n = some (.context c) → ∃! s, ScopeAnswer o calls c s
  /-- Nothing is known of the content if nothing is known of the element, or nothing is known
  to be in scope. -/
  unknown_iff : ∀ n a b, r.assignments.get? n = some a → r.outgoing.get? n = some b →
    (b = .unknown ↔ a = .unknown ∨ ∃ c, a = .context c ∧ ScopeAnswer o calls c .dynamic)
  /-- Else the content has the context of the element, or one inside it that a binding of the
  element has made. -/
  content : ∀ n a b, r.assignments.get? n = some a → r.outgoing.get? n = some b →
    b ≠ .unknown → b = a ∨ ∃ c c' x, a = .context c ∧ b = .context c' ∧ x ∈ d.bindingsOf n ∧
      r.contexts.origin? c' = some (.binding x) ∧ r.contexts.parent? c' = some c
  /-- Every context has an origin of its own. -/
  origin_injective : ∀ c c' x, r.contexts.origin? c = some x → r.contexts.origin? c' = some x →
    c = c'

namespace Engine

variable {o : Oracle U} {d : Document} {typeLibrary : String} {r : Resolved}
  {last e : Engine U} {unit : U}

/-- The answers are those of the state in which the type errors are asked for. -/
theorem Outcome.scopeAnswer_iff (h : Outcome o d typeLibrary r last e unit) {c : ContextId}
    {s : Shape} : ScopeAnswer o last.calls c s ↔ e.scopes.get? c = some s := by
  constructor
  · rintro ⟨unit', names, shapes, hcall, hanswer⟩
    rw [h.calls_eq, List.mem_append, List.mem_singleton] at hcall
    rcases hcall with hold | hnew
    · exact h.finished.answers c s ⟨unit', names, shapes, hold, hanswer⟩
    · cases hnew
  · intro hs
    obtain ⟨unit', names, shapes, hcall, hanswer⟩ := h.finished.reach.scoped.learned c s hs
    exact ⟨unit', names, shapes, h.calls_eq ▸ List.mem_append_left _ hcall, hanswer⟩

theorem Outcome.hands (h : Outcome o d typeLibrary r last e unit) {n : NodeId}
    {a b : Assignment} (ha : r.assignments.get? n = some a) (hb : r.outgoing.get? n = some b) :
    Hands d e.contexts e.scopes n a b := by
  rw [h.assignments_eq] at ha
  rw [h.outgoing_eq] at hb
  obtain ⟨⟨a', ha', hands⟩, -⟩ := h.finished.reach.scoped.handed n b hb
  cases ha.symm.trans ha'
  exact hands

/-- There are as many rounds as the deepest elements have levels. -/
theorem Outcome.iterations (h : Outcome o d typeLibrary r last e unit) :
    r.iterations = d.height := by
  rw [Resolved.iterations, h.frontierSizes_eq, h.finished.sizes, List.length_map,
    List.length_range]

/-- A failed state is left by a request that has failed. -/
theorem Failed.not_answered {f : OracleError} (h : Failed o d typeLibrary f e) :
    ¬∀ call ∈ e.calls, o.failure? call = none := by
  obtain ⟨e₀, call, -, -, hf, hcalls⟩ := h
  intro hanswered
  have hnone := hanswered call (hcalls ▸ List.mem_append_right _ (List.mem_singleton_self call))
  rw [hf] at hnone
  cases hnone

theorem Outcome.scopesRight (hd : d.WellFormed) (h : Outcome o d typeLibrary r last e unit) :
    ScopesRight o d last.calls r := by
  have hscoped := h.finished.reach.scoped
  refine ⟨?_, ?_, ?_, ?_, ?_, ?_, ?_⟩
  · rw [h.assignments_eq]
    exact h.finished.assigned
  · rw [h.outgoing_eq]
    exact h.finished.handed
  · intro n p a hn hp
    rw [h.assignments_eq, h.contexts_eq, h.outgoing_eq]
    obtain ⟨a', ha'⟩ := Option.isSome_iff_exists.mp ((h.finished.assigned n).mpr hn)
    obtain ⟨-, ⟨p', hp', hsur⟩, -⟩ := hscoped.assigned n a' ha'
    cases hp.symm.trans hp'
    rw [ha', Option.some_inj]
    constructor
    · rintro rfl
      exact hsur
    · intro hsur'
      exact hscoped.surrounds_unique hd hsur hsur'
  · intro n c ha
    rw [h.assignments_eq] at ha
    obtain ⟨s, hs⟩ := Option.isSome_iff_exists.mp ((hscoped.assigned n _ ha).2.2 c rfl)
    refine ⟨s, h.scopeAnswer_iff.mpr hs, ?_⟩
    intro s' hs'
    exact Option.some.inj ((h.scopeAnswer_iff.mp hs').symm.trans hs)
  · intro n a b ha hb
    simp only [h.scopeAnswer_iff]
    cases h.hands ha hb with
    | unknown => simp
    | dynamic hs => simp [hs]
    | same hs => simp [hs]
    | child hs => simp [hs]
  · intro n a b ha hb hne
    rw [h.contexts_eq]
    cases h.hands ha hb with
    | unknown => exact absurd rfl hne
    | dynamic hs => exact absurd rfl hne
    | same hs => exact .inl rfl
    | child hs hx horigin hparent => exact .inr ⟨_, _, _, rfl, rfl, hx, horigin, hparent⟩
  · rw [h.contexts_eq]
    intro c c' x hc hc'
    exact hscoped.origin_injective hd hc hc'

end Engine

/-- **The contexts of a view are those of the rules.**  If no request fails, resolution
succeeds, and it assigns every element the context that surrounds it. -/
theorem resolve_scopes_right [ScriptParser] (o : Oracle U) {file text : String}
    {tokenized : Markup.Tokenized} {handlers : Handlers} {d : Document}
    (hd : (build file text tokenized handlers).document = some d) (typeLibrary : String)
    (hanswered : ∀ call ∈ (runResolve o d typeLibrary).2.calls, o.failure? call = none) :
    ∃ r, resolve o d typeLibrary = .ok r ∧
      ScopesRight o d (runResolve o d typeLibrary).2.calls r := by
  have hwf := build_wellFormed hd
  rcases runResolve_cases o hwf typeLibrary with ⟨r, e, unit, hr, h⟩ | ⟨f, -, hfailed⟩
  · exact ⟨r, hr, h.scopesRight hwf⟩
  · exact absurd hanswered hfailed.not_answered

/-- A view with an element in its view model, and another element behind a directive inside
the first one. -/
def nestedView : Markup.Tokenized :=
  let type : TypeReference := ⟨⟨"View", default⟩, true⟩
  let tag (tagType : TagType) (bindings : List Payload) : Token :=
    .element ⟨"p", tagType, default, bindings, false⟩
  ⟨[.directive (.viewmodel default type), tag .start [⟨default, "a:1"⟩],
    .directive (.context default type), tag .empty [⟨default, "a:1"⟩], tag .stop []], .html⟩

theorem exists_nestedView :
    ∃ d, (build "view.html" "" nestedView ⟨.empty, .empty⟩).document = some d ∧
      d.bindingNodes = [1, 3] := by
  refine Option.map_eq_some_iff.mp ?_
  decide +kernel

/-- A type checker that gives every value a type of its own. -/
def lavishOracle : Oracle Nat where
  compile source _ := .ok source.revision
  inspect _ names := .ok (names.map fun name => (name, .known name []))
  findings _ := .ok []

theorem failure?_lavishOracle (call : Call Nat) : lavishOracle.failure? call = none := by
  cases call <;> rfl

theorem resolve_scopes_right_nestedView :
    ∃ d, (build "view.html" "" nestedView ⟨.empty, .empty⟩).document = some d ∧
      d.bindingNodes = [1, 3] ∧
      (∀ call ∈ (runResolve lavishOracle d "lib").2.calls, lavishOracle.failure? call = none) ∧
      ∃ r, resolve lavishOracle d "lib" = .ok r ∧
        ScopesRight lavishOracle d (runResolve lavishOracle d "lib").2.calls r := by
  obtain ⟨d, hd, hnodes⟩ := exists_nestedView
  have hanswered : ∀ call ∈ (runResolve lavishOracle d "lib").2.calls,
      lavishOracle.failure? call = none := fun call _ => failure?_lavishOracle call
  exact ⟨d, hd, hnodes, hanswered, resolve_scopes_right lavishOracle hd "lib" hanswered⟩

/-! ### The rounds of the outcome -/

theorem frontierAt_min_height (d : Document) (i : Nat) :
    d.frontierAt (min i d.height) = d.frontierAt i := by
  rcases Nat.le_total i d.height with h | h
  · rw [Nat.min_eq_left h]
  · rw [Nat.min_eq_right h, Document.frontierAt_eq_nil_iff.mpr h,
      Document.frontierAt_eq_nil_iff.mpr (Nat.le_refl _)]

/-- Without failures, a number of rounds leaves the elements of deeper levels, and some of them
are ready next. -/
theorem run_roundsFor (o : Oracle U) {d : Document} (hd : d.WellFormed) (typeLibrary : String)
    (hanswered : ∀ call, o.failure? call = none) (i : Nat) :
    ∃ e, (roundsFor o d i d.bindingNodes).run.run (.initial d typeLibrary) =
        (.ok (d.frontierAt i), e) ∧
      (d.frontierAt i ≠ [] → ((e.begun (d.frontierAt i)).ready d (d.frontierAt i)).1 ≠ []) := by
  have hinitial : Engine.AtRound o d typeLibrary 0 (.initial d typeLibrary) :=
    Engine.atRound_initial hd
  have h := hinitial.ensures_roundsFor hd i (Nat.zero_le _)
  rw [Document.frontierAt_zero hd.toIsTree, Nat.zero_add, frontierAt_min_height] at h
  unfold Resolving.Ensures at h
  generalize (roundsFor o d i d.bindingNodes).run.run (.initial d typeLibrary) = run at h ⊢
  obtain ⟨result, e⟩ := run
  cases result with
  | error f =>
    obtain ⟨-, call, -, -, hf, -⟩ := h
    rw [hanswered call] at hf
    cases hf
  | ok rest =>
    obtain ⟨rfl, h⟩ := h
    refine ⟨e, rfl, fun hne => ?_⟩
    have hlt := mt Document.frontierAt_eq_nil_iff.mpr hne
    rw [Nat.min_eq_left (by omega)] at h
    exact Engine.ready_ne_nil hd.toIsTree (h.finds hd (d.frontierAt i)).2 hne

/-- **Every round resolves the elements of one level.**  After `i` rounds the elements that are
left are those whose level is greater than `i`, and some of them are ready next; so there are as
many rounds as the deepest elements have levels, and no more than elements around each other. -/
theorem resolve_makes_progress [ScriptParser] (o : Oracle U) {file text : String}
    {tokenized : Markup.Tokenized} {handlers : Handlers} {d : Document}
    (hd : (build file text tokenized handlers).document = some d) (typeLibrary : String)
    (hanswered : ∀ call, o.failure? call = none) :
    (∀ fuel frontier, rounds o d fuel frontier =
      do let _ ← roundsFor o d fuel frontier; pure ()) ∧
    (∀ i, ∃ e, (roundsFor o d i d.bindingNodes).run.run (.initial d typeLibrary) =
        (.ok (d.frontierAt i), e) ∧
      (d.frontierAt i ≠ [] → ((e.begun (d.frontierAt i)).ready d (d.frontierAt i)).1 ≠ [])) ∧
    ∃ r, resolve o d typeLibrary = .ok r ∧
      r.frontierSizes = (List.range r.iterations).map (fun i => (d.frontierAt i).length) ∧
      r.frontierSizes.Pairwise (· > ·) ∧
      r.iterations = (d.bindingNodes.map d.level).foldr max 0 ∧
      r.iterations ≤ (d.bindingNodes.map d.bindingDepth).foldr max 0 := by
  have hwf := build_wellFormed hd
  refine ⟨Engine.rounds_eq o d, run_roundsFor o hwf typeLibrary hanswered, ?_⟩
  rcases runResolve_cases o hwf typeLibrary with ⟨r, e, unit, hr, h⟩ | ⟨f, -, -, call, -, -, hf, -⟩
  · have hsizes := h.frontierSizes_eq.trans h.finished.sizes
    refine ⟨r, hr, by rw [h.iterations, hsizes], ?_, h.iterations, ?_⟩
    · rw [hsizes, List.pairwise_map]
      refine List.pairwise_lt_range.imp_of_mem ?_
      intro i j _ hj hij
      exact Document.length_frontierAt_lt hwf.toIsTree hij (Nat.le_of_lt (List.mem_range.mp hj))
    · rw [h.iterations]
      refine List.max_le_of_forall_le _ _ ?_
      intro x hx
      obtain ⟨n, hn, rfl⟩ := List.mem_map.mp hx
      exact List.le_max_of_le (List.mem_map_of_mem hn) (d.level_le_bindingDepth n)
  · rw [hanswered call] at hf
    cases hf

theorem resolve_makes_progress_nestedView :
    ∃ d, (build "view.html" "" nestedView ⟨.empty, .empty⟩).document = some d ∧
      d.bindingNodes = [1, 3] ∧ (∀ call, lavishOracle.failure? call = none) ∧
      ∃ r, resolve lavishOracle d "lib" = .ok r ∧
        r.frontierSizes = (List.range r.iterations).map (fun i => (d.frontierAt i).length) ∧
        r.frontierSizes.Pairwise (· > ·) ∧
        r.iterations = (d.bindingNodes.map d.level).foldr max 0 := by
  obtain ⟨d, hd, hnodes⟩ := exists_nestedView
  obtain ⟨-, -, r, hr, hsizes, hpairwise, hiterations, -⟩ :=
    resolve_makes_progress lavishOracle hd "lib" failure?_lavishOracle
  exact ⟨d, hd, hnodes, failure?_lavishOracle, r, hr, hsizes, hpairwise, hiterations⟩

/-! ### The requests of the outcome -/

/-- **The requests follow the protocol.**  A failure of resolution is that of the last request.
If no request fails, the type errors are asked for once, as the last request and about the
finished program, which has been compiled at most twice a round and once more. -/
theorem resolve_follows_protocol [ScriptParser] (o : Oracle U) {file text : String}
    {tokenized : Markup.Tokenized} {handlers : Handlers} {d : Document}
    (hd : (build file text tokenized handlers).document = some d) (typeLibrary : String) :
    FollowsProtocol o (d.opening typeLibrary).pending (runResolve o d typeLibrary).2.calls ∧
    (∀ f, resolve o d typeLibrary = .error f → ∃ before call,
      (runResolve o d typeLibrary).2.calls = before ++ [call] ∧ o.failure? call = some f) ∧
    ((∀ call ∈ (runResolve o d typeLibrary).2.calls, o.failure? call = none) →
      ∃ r before source unit, resolve o d typeLibrary = .ok r ∧
        (runResolve o d typeLibrary).2.calls = before ++ [.findings unit] ∧
        (∀ unit', .findings unit' ∉ before) ∧
        newest o before = some (source, unit) ∧ source.text = r.probe.code ∧
        r.probe.revisions = (sources (runResolve o d typeLibrary).2.calls).length ∧
        r.probe.revisions ≤ 2 * r.iterations + 1) := by
  have hwf := build_wellFormed hd
  rcases runResolve_cases o hwf typeLibrary with ⟨r, e, unit, hr, h⟩ | ⟨f, hr, hfailed⟩
  · have htraced := h.finished.reach.traced
    refine ⟨?_, ?_, fun _ => ?_⟩
    · rw [h.calls_eq]
      exact (htraced.append h.request h.answered).1
    · intro f hf
      cases hr.symm.trans hf
    · have hunit : e.unit = some unit := by
        cases h.request with
        | findings hunit _ => exact hunit
      obtain ⟨source, hnewest, htext⟩ := htraced.exists_newest hunit
      have hsources : sources (runResolve o d typeLibrary).2.calls = sources e.calls := by
        rw [h.calls_eq, sources_append]
        exact List.append_nil _
      refine ⟨r, e.calls, source, unit, hr, h.calls_eq, htraced.silent, hnewest, ?_, ?_, ?_⟩
      · rw [htext, h.probe_eq]
        rfl
      · rw [hsources, htraced.revisions, h.probe_eq]
        rfl
      · rw [h.iterations, h.probe_eq]
        exact h.finished.revisions
  · refine ⟨hfailed.followsProtocol, ?_, ?_⟩
    · intro f' hf'
      cases hr.symm.trans hf'
      obtain ⟨e, call, -, -, hf, hcalls⟩ := hfailed
      exact ⟨e.calls, call, hcalls, hf⟩
    · intro hanswered
      exact absurd hanswered hfailed.not_answered

theorem resolve_follows_protocol_nestedView :
    ∃ d, (build "view.html" "" nestedView ⟨.empty, .empty⟩).document = some d ∧
      d.bindingNodes = [1, 3] ∧
      FollowsProtocol lavishOracle (d.opening "lib").pending
        (runResolve lavishOracle d "lib").2.calls ∧
      ∃ r before unit, resolve lavishOracle d "lib" = .ok r ∧
        (runResolve lavishOracle d "lib").2.calls = before ++ [.findings unit] ∧
        r.probe.revisions ≤ 2 * r.iterations + 1 := by
  obtain ⟨d, hd, hnodes⟩ := exists_nestedView
  obtain ⟨hfollows, -, hend⟩ := resolve_follows_protocol lavishOracle hd "lib"
  obtain ⟨r, before, source, unit, hr, hcalls, -, -, -, -, hrevisions⟩ :=
    hend fun call _ => failure?_lavishOracle call
  exact ⟨d, hd, hnodes, hfollows, r, before, unit, hr, hcalls, hrevisions⟩

end ViewLint
