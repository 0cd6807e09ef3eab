import Mathlib.Data.List.MinMax
import Mathlib.Order.Nat
import ViewLint.Proofs.Resolve.Phases

/-!
# The rounds of a resolution

The level of an element is the number of elements on the way to it from the view model that it
belongs to.  Round by round, resolution assigns the elements of one level: after `i` rounds the
elements up to level `i` are done, and those that are left are deeper.

## Main definitions

* `Document.frontierAt` — the elements that are left after some rounds.
* `Engine.AtRound` — the state between two rounds.
* `Engine.Round` — the phases of a round, with the states between them.
* `roundsFor` — a number of rounds, with what is left behind them.

## Main results

* `Engine.ready_ne_nil` — some element is ready as long as any are left.
* `Engine.AtRound.ensures_phases` — a round runs through its phases, or a request fails.
* `Engine.AtRound.ensures_round` — a round goes one level deeper.
* `ensures_resolving_of` — what every round keeps holds of the state behind a resolution.
* `ensures_resolving` — a resolution succeeds with all elements assigned, or a request fails.
-/

namespace ViewLint

variable {U : Type}

/-- The elements that are left after some rounds. -/
def Document.frontierAt (d : Document) (i : Nat) : List NodeId :=
  d.bindingNodes.filter (i < d.level ·)

/-- The level of the deepest elements. -/
def Document.height (d : Document) : Nat := (d.bindingNodes.map d.level).foldr max 0

/-- At most a given number of rounds, and the elements that are left behind them. -/
def roundsFor (o : Oracle U) (d : Document) : Nat → List NodeId → Resolving U (List NodeId)
  | _, [] => pure []
  | 0, n :: frontier => pure (n :: frontier)
  | fuel + 1, n :: frontier => do
    let rest ← round o d (n :: frontier)
    roundsFor o d fuel rest

namespace Document

variable {d : Document}

theorem mem_frontierAt (hd : d.IsTree) {i : Nat} {n : NodeId} :
    n ∈ d.frontierAt i ↔ (d.bindingNode? n).isSome ∧ i < d.level n := by
  rw [frontierAt, List.mem_filter, hd.mem_bindingNodes, decide_eq_true_eq]

/-- At first all elements are left, since none has level zero. -/
theorem frontierAt_zero (hd : d.IsTree) : d.frontierAt 0 = d.bindingNodes := by
  refine List.filter_eq_self.mpr ?_
  intro n hn
  obtain ⟨content, hc⟩ := Option.isSome_iff_exists.mp (hd.mem_bindingNodes.mp hn)
  obtain ⟨p, hp⟩ := hd.exists_parent (bindingNode?_eq_some.mp hc)
  rw [decide_eq_true_eq, hd.level_element (hd.mem_bindingNodes.mp hn) hp]
  exact Nat.succ_pos _

/-- No elements are left from the level of the deepest ones on. -/
theorem frontierAt_eq_nil_iff {i : Nat} : d.frontierAt i = [] ↔ d.height ≤ i := by
  rw [frontierAt, List.filter_eq_nil_iff]
  constructor
  · intro h
    refine List.max_le_of_forall_le _ i ?_
    intro x hx
    obtain ⟨n, hn, rfl⟩ := List.mem_map.mp hx
    simpa using h n hn
  · intro h n hn
    rw [decide_eq_true_eq, Nat.not_lt]
    exact Nat.le_trans (List.le_max_of_le (List.mem_map_of_mem hn) (Nat.le_refl _)) h

/-- What is left before a round holds elements of the next level. -/
theorem exists_next_level (hd : d.IsTree) {i : Nat} (h : d.frontierAt i ≠ []) :
    ∃ n, n ∈ d.frontierAt i ∧ d.level n = i + 1 := by
  obtain ⟨m, hm⟩ := List.exists_mem_of_ne_nil _ h
  obtain ⟨hmem, hlevel⟩ := (mem_frontierAt hd).mp hm
  obtain ⟨content, hc⟩ := Option.isSome_iff_exists.mp hmem
  have hlt := lt_size_of_kind? (bindingNode?_eq_some.mp hc)
  obtain ⟨n, hn, hnl⟩ := hd.exists_level hlt (Nat.succ_pos i) hlevel
  exact ⟨n, (mem_frontierAt hd).mpr ⟨hn, by omega⟩, hnl⟩

/-- Every round leaves fewer elements. -/
theorem length_frontierAt_succ (hd : d.IsTree) {i : Nat} (h : d.frontierAt i ≠ []) :
    (d.frontierAt (i + 1)).length < (d.frontierAt i).length := by
  have hfilter : d.frontierAt (i + 1) = (d.frontierAt i).filter (i + 1 < d.level ·) := by
    rw [frontierAt, frontierAt, List.filter_filter]
    refine List.filter_congr ?_
    intro n _
    rw [Bool.eq_iff_iff, Bool.and_eq_true, decide_eq_true_eq, decide_eq_true_eq]
    omega
  obtain ⟨n, hn, hlevel⟩ := exists_next_level hd h
  rw [hfilter, List.length_filter_lt_length_iff_exists]
  exact ⟨n, hn, by simp [hlevel]⟩

theorem length_frontierAt_lt (hd : d.IsTree) {i j : Nat} (hij : i < j) (hj : j ≤ d.height) :
    (d.frontierAt j).length < (d.frontierAt i).length := by
  induction hij with
  | refl =>
    refine length_frontierAt_succ hd ?_
    rw [Ne, frontierAt_eq_nil_iff]
    omega
  | @step k hik ih =>
    refine Nat.lt_trans (length_frontierAt_succ hd ?_) (ih (Nat.le_of_succ_le hj))
    rw [Ne, frontierAt_eq_nil_iff]
    omega

/-- Rounds and elements that are left are together no more than there are elements. -/
theorem add_length_frontierAt_le (hd : d.IsTree) {k : Nat} (hk : k ≤ d.height) :
    k + (d.frontierAt k).length ≤ d.bindingNodes.length := by
  induction k with
  | zero => rw [frontierAt_zero hd, Nat.zero_add]
  | succ k ih =>
    have hne : d.frontierAt k ≠ [] := by
      rw [Ne, frontierAt_eq_nil_iff]
      omega
    have hlt := length_frontierAt_succ hd hne
    have hle := ih (Nat.le_of_succ_le hk)
    omega

theorem height_le_length (hd : d.IsTree) : d.height ≤ d.bindingNodes.length :=
  Nat.le_trans (Nat.le_add_right _ _) (add_length_frontierAt_le hd (Nat.le_refl _))

end Document

namespace Engine

open Document

/-- Every scope that has been declared has been looked at. -/
def Looked (e : Engine U) : Prop :=
  ∀ c, .scope c ∈ e.probe.declarations → (e.scopes.get? c).isSome

/-- The state between two rounds: what is fixed for elements up to the level of the last round,
and the type checker has been asked for the scope of a context only if it is known. -/
structure AtRound (o : Oracle U) (d : Document) (typeLibrary : String) (i : Nat)
    (e : Engine U) : Prop where
  reach : Reach o d typeLibrary e
  root : (e.typeContexts.get? Document.root).isSome
  assigned : ∀ n, (e.assignments.get? n).isSome ↔ (d.bindingNode? n).isSome ∧ d.level n ≤ i
  handed : e.HandedUpTo d i
  sizes : e.frontierSizes = (List.range i).map fun j => (d.frontierAt j).length
  revisions : e.probe.revisions ≤ 2 * i
  answers : ∀ c s, ScopeAnswer o e.calls c s → e.scopes.get? c = some s
  looked : e.Looked

variable {o : Oracle U} {d : Document} {typeLibrary : String} {e e' : Engine U}

/-! ### Requests in a round -/

/-- A part of a round with at most one revision, which keeps the sizes of the frontiers and
learns every scope that it asks for. -/
structure Part (o : Oracle U) (d : Document) (typeLibrary : String) (e e' : Engine U) : Prop where
  reach : Reach o d typeLibrary e'
  grows : e.Grows e'
  frontierSizes : e'.frontierSizes = e.frontierSizes
  revisions : e'.probe.revisions ≤ e.probe.revisions + 1
  answers : ∀ c s, ScopeAnswer o e'.calls c s → e'.scopes.get? c = some s
  looked : e'.Looked

theorem Part.refl (hreach : Reach o d typeLibrary e)
    (hanswers : ∀ c s, ScopeAnswer o e.calls c s → e.scopes.get? c = some s)
    (hlooked : e.Looked) : Part o d typeLibrary e e :=
  ⟨hreach, .refl e, rfl, Nat.le_succ _, hanswers, hlooked⟩

theorem grows_compiled (e : Engine U) (unit : U) : e.Grows (e.compiled unit) :=
  ⟨.refl _, .refl _, .refl _, .refl _, .refl _⟩

theorem grows_asked (e : Engine U) (call : Call U) : e.Grows (e.asked call) :=
  ⟨.refl _, .refl _, .refl _, .refl _, .refl _⟩

/-- A failing request leaves a failed state. -/
theorem failed_of_requests (hreach : Reach o d typeLibrary e) {call : Call U}
    (hreq : e.Requests call) {f : OracleError} (hf : o.failure? call = some f)
    (hcalls : e'.calls = e.calls ++ [call]) : Failed o d typeLibrary f e' :=
  ⟨e, call, hreach, hreq, hf, hcalls⟩

/-- A revision and a question about it.  The state behind the answer is the one in which the
program has been committed and the two requests have been made. -/
theorem ensures_compile_inspect {names : List String} (hreach : Reach o d typeLibrary e)
    (hpending : e.probe.pending ≠ "") (hne : names ≠ []) (hnodup : names.Nodup)
    (hdeclared : ∀ name ∈ names, ∃ c ∈ e.probe.declarations, c.Gives name)
    {α : Type} {k : List (String × Shape) → Resolving U α} {R : α → Engine U → Prop}
    (hk : ∀ unit shapes, o.inspect unit names = .ok shapes →
      Reach o d typeLibrary ((e.compiled unit).asked (.inspect unit names)) →
      Resolving.Ensures (k shapes) ((e.compiled unit).asked (.inspect unit names)) R
        (Failed o d typeLibrary)) :
    Resolving.Ensures (do Resolving.compile o; let shapes ← Resolving.inspect o names; k shapes)
      e R (Failed o d typeLibrary) := by
  have hreq : e.Requests (.compile e.probe.commit.1 e.unit) := .compile hpending
  refine .bind (Resolving.ensures_compile ?_ ?_)
  · intro unit hok
    have hreach' := hreach.compile hreq hok
    have hreq' : (e.compiled unit).Requests (.inspect unit names) :=
      .inspect rfl rfl hne hnodup hdeclared
    refine .bind (Resolving.ensures_inspect rfl ?_ ?_)
    · intro shapes hshapes
      exact hk unit shapes hshapes (hreach'.inspect hreq' hshapes)
    · intro f hf
      exact failed_of_requests hreach' hreq' (by rw [Oracle.failure?, hf]) rfl
  · intro f hf
    exact failed_of_requests hreach hreq (by rw [Oracle.failure?, hf]) rfl

/-- What happens around one revision and the question about it is a part of a round, if all
scopes that the question is about are learned. -/
theorem Part.of_revision {e₁ e₂ : Engine U} {unit : U} {names : List String}
    {shapes : List (String × Shape)} {cs : List Declaration}
    (hanswers : ∀ c s, ScopeAnswer o e.calls c s → e.scopes.get? c = some s)
    (hlooked : e.Looked) (hdecl : Declaring e e₁ cs)
    (hscopes : ∀ c, .scope c ∈ cs → scopeName c ∈ names)
    (hreach : Reach o d typeLibrary ((e₁.compiled unit).asked (.inspect unit names)))
    (hok : o.inspect unit names = .ok shapes)
    (hus' : Updates o d ((e₁.compiled unit).asked (.inspect unit names)) e₂)
    (hnew : ∀ c, scopeName c ∈ names → e₂.scopes.get? c = some (shapeOf shapes (scopeName c))) :
    Part o d typeLibrary e e₂ := by
  have hgrows : e.Grows e₂ :=
    ((hdecl.grows.trans (grows_compiled e₁ unit)).trans (grows_asked _ _)).trans hus'.grows
  refine ⟨hreach.updates hus', hgrows, ?_, ?_, ?_, ?_⟩
  · exact hus'.quiet.frontierSizes.trans hdecl.quiet.frontierSizes
  · rw [hus'.quiet.revisions, ← hdecl.quiet.revisions]
    exact Nat.le_refl _
  · rintro c s ⟨unit', names', shapes', hcall, hname, hok', rfl⟩
    have hcalls : e₂.calls =
        e.calls ++ [.compile e₁.probe.commit.1 e₁.unit] ++ [.inspect unit names] := by
      rw [hus'.quiet.calls, ← hdecl.quiet.calls]
      rfl
    rw [hcalls, List.mem_append, List.mem_append, List.mem_singleton, List.mem_singleton] at hcall
    rcases hcall with (hold | hcompile) | hinspect
    · exact hgrows.scopes c _ (hanswers c _ ⟨unit', names', shapes', hold, hname, hok', rfl⟩)
    · cases hcompile
    · cases hinspect
      rw [hok] at hok'
      cases hok'
      exact hnew c hname
  · intro c hc
    rw [hus'.scope_mem] at hc
    change .scope c ∈ e₁.probe.declarations at hc
    rw [hdecl.declarations] at hc
    rcases List.mem_append.mp hc with hold | hc
    · obtain ⟨s, hs⟩ := Option.isSome_iff_exists.mp (hlooked c hold)
      exact Option.isSome_of_eq_some (hgrows.scopes c s hs)
    · exact Option.isSome_of_eq_some (hnew c (hscopes c hc))

/-! ### Asking for scopes -/

theorem mem_scopeNames {found : List (ContextId × NodeId)} {name : String} :
    name ∈ found.flatMap (fun x => [scopeName x.1, contextName x.1]) ↔
      ∃ c ∈ found.map (·.1), name = scopeName c ∨ name = contextName c := by
  simp only [List.mem_flatMap, List.mem_map, List.mem_cons, List.not_mem_nil, or_false]
  constructor
  · rintro ⟨x, hx, h⟩
    exact ⟨x.1, ⟨x, hx, rfl⟩, h⟩
  · rintro ⟨_, ⟨x, hx, rfl⟩, h⟩
    exact ⟨x, hx, h⟩

theorem scopeName_mem_scopeNames {found : List (ContextId × NodeId)} {c : ContextId} :
    scopeName c ∈ found.flatMap (fun x => [scopeName x.1, contextName x.1]) ↔
      c ∈ found.map (·.1) := by
  rw [mem_scopeNames]
  constructor
  · rintro ⟨c', hc', hname | hname⟩
    · rw [scopeName_injective hname]
      exact hc'
    · exact absurd hname (scopeName_ne_contextName c c')
  · intro hc
    exact ⟨c, hc, .inl rfl⟩

theorem nodup_scopeNames {found : List (ContextId × NodeId)} (h : (found.map (·.1)).Nodup) :
    (found.flatMap fun x => [scopeName x.1, contextName x.1]).Nodup := by
  rw [List.nodup_flatMap]
  refine ⟨?_, ?_⟩
  · intro x _
    simpa using scopeName_ne_contextName x.1 x.1
  · rw [List.Nodup, List.pairwise_map] at h
    refine h.imp ?_
    intro x y hne
    have hscope : scopeName x.1 ≠ scopeName y.1 := fun heq => hne (scopeName_injective heq)
    have hcontext : contextName x.1 ≠ contextName y.1 := fun heq => hne (contextName_injective heq)
    have hcross := scopeName_ne_contextName x.1 y.1
    have hcross' := (scopeName_ne_contextName y.1 x.1).symm
    simp [Function.onFun, List.disjoint_left, hscope, hcontext, hcross, hcross']

/-- The contexts of ready elements are contexts of the view. -/
theorem Covers.lt_size {ready : List (NodeId × Assignment)} {found : List (ContextId × NodeId)}
    (h : e.Covers ready found) (hreach : Reach o d typeLibrary e)
    (hready : ∀ n a, (n, a) ∈ ready → ∃ p, d.parent? n = some p ∧ e.inside? d p = some a)
    {c : ContextId} (hc : c ∈ found.map (·.1)) : c < e.contexts.size := by
  obtain ⟨⟨c, n⟩, hx, rfl⟩ := List.mem_map.mp hc
  obtain ⟨p, -, hin⟩ := hready n _ (h.sound c n hx).1
  exact hreach.scoped.lt_size_of_surrounds (hreach.scoped.surrounds_of_inside? hin)

/-- A scope that has not been looked at has not been declared. -/
theorem Covers.scope_not_mem {ready : List (NodeId × Assignment)}
    {found : List (ContextId × NodeId)} (h : e.Covers ready found) (hlooked : e.Looked)
    {c : ContextId} (hc : c ∈ found.map (·.1)) : .scope c ∉ e.probe.declarations := by
  obtain ⟨⟨c, n⟩, hx, rfl⟩ := List.mem_map.mp hc
  intro hmem
  have hsome := hlooked c hmem
  rw [(h.sound c n hx).2] at hsome
  cases hsome

/-- The program declares the names of scopes as soon as these have been declared, and those of
the contexts before. -/
theorem declared_scopeNames {ready : List (NodeId × Assignment)}
    {found : List (ContextId × NodeId)} (hreach : Reach o d typeLibrary e)
    (hready : ∀ n a, (n, a) ∈ ready → ∃ p, d.parent? n = some p ∧ e.inside? d p = some a)
    (hcovers : e.Covers ready found)
    (hdecl : Declaring e e' (found.map fun x => .scope x.1)) {name : String}
    (hname : name ∈ found.flatMap fun x => [scopeName x.1, contextName x.1]) :
    ∃ x ∈ e'.probe.declarations, x.Gives name := by
  rw [hdecl.declarations]
  obtain ⟨c, hc, rfl | rfl⟩ := mem_scopeNames.mp hname
  · obtain ⟨x, hx, rfl⟩ := List.mem_map.mp hc
    exact ⟨.scope x.1, List.mem_append_right _ (List.mem_map.mpr ⟨x, hx, rfl⟩),
      Declaration.gives_scope x.1⟩
  · obtain ⟨x, hx, hgives⟩ := hreach.traced.contexts c (hcovers.lt_size hreach hready hc)
    exact ⟨x, List.mem_append_left _ hx, hgives⟩

/-- The scopes of contexts that are new have been asked for all at once, and have been learned. -/
inductive ProbesScopes (o : Oracle U) (d : Document) (ready : List (NodeId × Assignment))
    (e : Engine U) : Engine U → Prop where
  | nothing : e.unseen ready = [] → ProbesScopes o d ready e e
  | asked {probe : Probe} {unit : U} {names : List String} {shapes : List (String × Shape)} :
    names = (e.unseen ready).flatMap (fun x => [scopeName x.1, contextName x.1]) →
    o.inspect unit names = .ok shapes →
    ProbesScopes o d ready e ((e.unseen ready).foldl (learnScope d shapes)
      (({ e with probe }.compiled unit).asked (.inspect unit names)))

/-- All contexts of ready elements have been looked at after their scopes have been asked
for. -/
theorem ensures_probeScopes {ready : List (NodeId × Assignment)}
    (hreach : Reach o d typeLibrary e)
    (hanswers : ∀ c s, ScopeAnswer o e.calls c s → e.scopes.get? c = some s)
    (hlooked : e.Looked)
    (hready : ∀ n a, (n, a) ∈ ready → ∃ p, d.parent? n = some p ∧ e.inside? d p = some a) :
    Resolving.Ensures (probeScopes o d ready) e
      (fun _ e' => Part o d typeLibrary e e' ∧ e'.assignments = e.assignments ∧
        e'.outgoing = e.outgoing ∧
        (∀ n c, (n, .context c) ∈ ready → (e'.scopes.get? c).isSome) ∧ ProbesScopes o d ready e e')
      (Failed o d typeLibrary) := by
  have hcovers := covers_unseen e ready
  unfold probeScopes
  refine .bind (Resolving.ensures_get ?_)
  dsimp only
  generalize hunseen : e.unseen ready = found at hcovers ⊢
  split
  · -- every context has been looked at before
    next hempty =>
    rw [List.isEmpty_iff] at hempty
    refine Resolving.ensures_pure ⟨.refl hreach hanswers hlooked, rfl, rfl, ?_,
      .nothing (hunseen.trans hempty)⟩
    intro n c hn
    rcases hcovers.complete n c hn with hseen | hfound
    · exact hseen
    · rw [hempty] at hfound
      cases hfound
  · next hne =>
    rw [List.isEmpty_iff] at hne
    have hdecl := declaring_scopes found e
    have hreach₁ := reach_scopes found hreach hcovers.nodup
      (fun c hc => hcovers.lt_size hreach hready hc) (fun c hc => hcovers.scope_not_mem hlooked hc)
    refine .bind (Resolving.ensures_modify ?_)
    generalize found.foldl (fun e found => e.declare (.scope found.1)) e = e₁ at hdecl hreach₁ ⊢
    have hpending : e₁.probe.pending ≠ "" := hdecl.pending_ne (by simpa using hne)
    have hnames : found.flatMap (fun x => [scopeName x.1, contextName x.1]) ≠ [] := by
      obtain ⟨x, found, rfl⟩ := List.exists_cons_of_ne_nil hne
      simp
    refine ensures_compile_inspect hreach₁ hpending hnames (nodup_scopeNames hcovers.nodup)
      (fun name hname => declared_scopeNames hreach hready hcovers hdecl hname) ?_
    intro unit shapes hok hreach₂
    obtain ⟨probe, hsame⟩ := hdecl.same
    have hlearns := learns_foldl (o := o) (d := d)
      (e := (e₁.compiled unit).asked (.inspect unit _)) shapes found hcovers.nodup
      (fun c hc => ⟨unit, _, shapes, List.mem_append_right _ (List.mem_singleton_self _),
        scopeName_mem_scopeNames.mpr hc, hok, rfl⟩)
      (fun c hc => by
        obtain ⟨⟨c, n⟩, hx, rfl⟩ := List.mem_map.mp hc
        rw [hsame]
        exact (hcovers.sound c n hx).2)
    refine Resolving.ensures_modify ⟨?_, ?_, ?_, ?_, ?_⟩
    · refine .of_revision hanswers hlooked hdecl ?_ hreach₂ hok hlearns.updates fun c hc =>
        hlearns.scopes c (scopeName_mem_scopeNames.mp hc)
      intro c hc
      obtain ⟨x, hx, heq⟩ := List.mem_map.mp hc
      cases heq
      exact scopeName_mem_scopeNames.mpr (List.mem_map_of_mem hx)
    · rw [hlearns.assignments, hsame]
      rfl
    · rw [hlearns.outgoing, hsame]
      rfl
    · intro n c hn
      rcases hcovers.complete n c hn with hseen | hfound
      · obtain ⟨s, hs⟩ := Option.isSome_iff_exists.mp hseen
        have hs₁ := hdecl.grows.scopes c s hs
        exact Option.isSome_of_eq_some (hlearns.updates.grows.scopes c s hs₁)
      · exact Option.isSome_of_eq_some (hlearns.scopes c hfound)
    · rw [hsame, ← hunseen]
      exact .asked rfl (hunseen ▸ hok)

/-! ### Asking for the values of bindings -/

theorem nodup_bindingNames (hd : d.WellFormed) {nodes : List (NodeId × ContextId)}
    (h : (nodes.map (·.1)).Nodup) :
    (nodes.flatMap fun node => (d.bindingsOf node.1).map bindingName).Nodup := by
  rw [List.nodup_flatMap]
  refine ⟨?_, ?_⟩
  · intro x _
    exact (nodup_bindingsOf hd x.1).map fun _ _ heq => bindingName_injective heq
  · rw [List.Nodup, List.pairwise_map] at h
    refine h.imp ?_
    intro x y hne name hx hy
    obtain ⟨b, hb, rfl⟩ := List.mem_map.mp hx
    obtain ⟨b', hb', heq⟩ := List.mem_map.mp hy
    rw [bindingName_injective heq] at hb'
    exact hne (hd.node_unique hb hb')

/-- The values of the bindings of evaluated elements have been asked for all at once, and the
elements have been settled. -/
inductive ProbesBindings (o : Oracle U) (d : Document) (nodes : List (NodeId × ContextId))
    (e : Engine U) : Engine U → Prop where
  | nothing : nodes = [] → ProbesBindings o d nodes e e
  | asked {unit : U} {names : List String} {shapes : List (String × Shape)} :
    names = nodes.flatMap (fun node => (d.bindingsOf node.1).map bindingName) →
    o.inspect unit names = .ok shapes →
    ProbesBindings o d nodes e
      (((e.compiled unit).asked (.inspect unit names)).settle d shapes nodes)

/-- Evaluated elements have handed something to their content after the values of their
bindings have been asked for. -/
theorem ensures_probeBindings (hd : d.WellFormed) {nodes : List (NodeId × ContextId)}
    (hreach : Reach o d typeLibrary e)
    (hanswers : ∀ c s, ScopeAnswer o e.calls c s → e.scopes.get? c = some s)
    (hlooked : e.Looked)
    (hnodup : (nodes.map (·.1)).Nodup) (hopen : ∀ n c, (n, c) ∈ nodes → e.Open d n c)
    (hpending : nodes ≠ [] → e.probe.pending ≠ "") :
    Resolving.Ensures (probeBindings o d nodes) e
      (fun _ e' => Part o d typeLibrary e e' ∧ e'.assignments = e.assignments ∧
        (∀ n, (e'.outgoing.get? n).isSome ↔ (e.outgoing.get? n).isSome ∨ n ∈ nodes.map (·.1)) ∧
        ProbesBindings o d nodes e e')
      (Failed o d typeLibrary) := by
  unfold probeBindings
  split
  · next hempty =>
    rw [List.isEmpty_iff] at hempty
    refine Resolving.ensures_pure ⟨.refl hreach hanswers hlooked, rfl, ?_, .nothing hempty⟩
    simp [hempty]
  · next hne =>
    rw [List.isEmpty_iff] at hne
    have hnames : nodes.flatMap (fun node => (d.bindingsOf node.1).map bindingName) ≠ [] := by
      obtain ⟨⟨n, c⟩, hx⟩ := List.exists_mem_of_ne_nil _ hne
      have helement := (hreach.scoped.assigned n _ (hopen n c hx).assignment).1
      obtain ⟨b, hb⟩ := exists_mem_bindingsOf hd helement
      exact List.ne_nil_of_mem (List.mem_flatMap.mpr ⟨_, hx, List.mem_map_of_mem hb⟩)
    refine ensures_compile_inspect hreach (hpending hne) hnames (nodup_bindingNames hd hnodup)
      ?_ ?_
    · intro name hname
      obtain ⟨⟨n, c⟩, hx, hmap⟩ := List.mem_flatMap.mp hname
      obtain ⟨b, hb, rfl⟩ := List.mem_map.mp hmap
      obtain ⟨y, c', members, hy, rfl⟩ := (hopen n c hx).evaluated b hb
      exact ⟨_, hy, Declaration.gives_transformation y c' members⟩
    · intro unit shapes hok hreach'
      obtain ⟨hus, hassign, hout⟩ := updates_settle (o := o)
        (e := (e.compiled unit).asked (.inspect unit _)) hd shapes nodes hnodup
        fun n c hx => ⟨(hopen n c hx).assignment, (hopen n c hx).scope, (hopen n c hx).outgoing,
          (hopen n c hx).evaluated⟩
      refine Resolving.ensures_modify ⟨?_, hassign, hout, .asked rfl hok⟩
      refine .of_revision hanswers hlooked (.refl e) (fun _ hc => nomatch hc) hreach' hok hus ?_
      -- no scope has been asked for
      intro c hc
      obtain ⟨x, -, hb⟩ := List.mem_flatMap.mp hc
      obtain ⟨b, -, heq⟩ := List.mem_map.mp hb
      exact absurd heq.symm (scopeName_ne_bindingName c b)

/-! ### One round -/

/-- The elements that are left behind a round are those that are deeper. -/
theorem filter_frontierAt {i : Nat} {ready : List (NodeId × Assignment)}
    (h : ready.map (·.1) = (d.frontierAt i).filter (d.level · ≤ i + 1)) :
    (d.frontierAt i).filter (fun n => !ready.any (·.1 == n)) = d.frontierAt (i + 1) := by
  have hany : ∀ n ∈ d.bindingNodes,
      (ready.any (·.1 == n) = true ↔ i < d.level n ∧ d.level n ≤ i + 1) := by
    intro n hn
    rw [any_fst_iff, h, List.mem_filter, Document.frontierAt, List.mem_filter, decide_eq_true_eq,
      decide_eq_true_eq]
    exact ⟨fun hm => ⟨hm.1.2, hm.2⟩, fun hm => ⟨⟨hn, hm.1⟩, hm.2⟩⟩
  unfold Document.frontierAt
  rw [List.filter_filter]
  refine List.filter_congr ?_
  intro n hn
  rw [Bool.eq_iff_iff, Bool.and_eq_true, Bool.not_eq_true', ← Bool.not_eq_true, hany n hn,
    decide_eq_true_eq, decide_eq_true_eq]
  omega

/-- Some element is ready as long as any are left. -/
theorem ready_ne_nil (hd : d.IsTree) {i : Nat} {ready : List (NodeId × Assignment)}
    (hmap : ready.map (·.1) = (d.frontierAt i).filter (d.level · ≤ i + 1))
    (hne : d.frontierAt i ≠ []) : ready ≠ [] := by
  obtain ⟨n, hn, hlevel⟩ := exists_next_level hd hne
  have hmem : n ∈ (d.frontierAt i).filter (d.level · ≤ i + 1) :=
    List.mem_filter.mpr ⟨hn, by simp [hlevel]⟩
  rintro rfl
  rw [← hmap] at hmem
  cases hmem

/-- The elements that are ready in a round are those of the next level. -/
theorem AtRound.finds (hd : d.WellFormed) {i : Nat} (h : AtRound o d typeLibrary i e)
    (frontier : List NodeId) :
    Finds o d (e.begun frontier) ((e.begun frontier).ready d (d.frontierAt i)) ∧
      ((e.begun frontier).ready d (d.frontierAt i)).1.map (·.1) =
        (d.frontierAt i).filter (d.level · ≤ i + 1) :=
  finds_ready hd.toIsTree _ (fun _ hn => ((mem_frontierAt hd.toIsTree).mp hn).1)
    (h.reach.begin frontier).scoped h.root h.handed

/-- The next level comes on top of those before. -/
theorem and_level_le_succ {p : Prop} {k i : Nat} :
    (p ∧ k ≤ i) ∨ (p ∧ i < k ∧ k ≤ i + 1) ↔ p ∧ k ≤ i + 1 := by
  rw [← and_or_left]
  refine and_congr_right fun _ => ?_
  omega

/-- Updates ask for no scope. -/
theorem Updates.answers (h : Updates o d e e')
    (hanswers : ∀ c s, ScopeAnswer o e.calls c s → e.scopes.get? c = some s) :
    ∀ c s, ScopeAnswer o e'.calls c s → e'.scopes.get? c = some s := by
  intro c s hs
  rw [h.quiet.calls] at hs
  exact h.grows.scopes c s (hanswers c s hs)

/-- Updates declare no scope. -/
theorem Updates.looked (h : Updates o d e e') (hlooked : e.Looked) : e'.Looked := by
  intro c hc
  obtain ⟨s, hs⟩ := Option.isSome_iff_exists.mp (hlooked c (h.scope_mem.mp hc))
  exact Option.isSome_of_eq_some (h.grows.scopes c s hs)

section Ready

variable {i : Nat} {ready : List (NodeId × Assignment)}

theorem mem_ready_iff (hd : d.IsTree)
    (hmap : ready.map (·.1) = (d.frontierAt i).filter (d.level · ≤ i + 1)) {n : NodeId} :
    n ∈ ready.map (·.1) ↔ (d.bindingNode? n).isSome ∧ i < d.level n ∧ d.level n ≤ i + 1 := by
  rw [hmap, List.mem_filter, mem_frontierAt hd, decide_eq_true_eq, and_assoc]

theorem nodup_ready (hd : d.IsTree)
    (hmap : ready.map (·.1) = (d.frontierAt i).filter (d.level · ≤ i + 1)) :
    (ready.map (·.1)).Nodup := by
  rw [hmap]
  exact (hd.nodup_bindingNodes.filter _).filter _

/-- Ready elements can be assigned once the scopes of their contexts have been looked at. -/
theorem AtRound.evaluates (hd : d.WellFormed) (h : AtRound o d typeLibrary i e)
    (hreach : Reach o d typeLibrary e')
    (hmap : ready.map (·.1) = (d.frontierAt i).filter (d.level · ≤ i + 1))
    (hinside : ∀ n a, (n, a) ∈ ready → ∃ p, d.parent? n = some p ∧ e'.inside? d p = some a)
    (hseen : ∀ n c, (n, .context c) ∈ ready → (e'.scopes.get? c).isSome)
    (hassign : e'.assignments = e.assignments) (hout : e'.outgoing = e.outgoing) :
    Evaluates o d e' ready (e'.evaluate d ready) := by
  refine Engine.evaluates hd hreach ready (nodup_ready hd.toIsTree hmap) ?_
  intro n a hn
  have hmem : n ∈ ready.map (·.1) := List.mem_map.mpr ⟨_, hn, rfl⟩
  obtain ⟨helement, hlevel, -⟩ := (mem_ready_iff hd.toIsTree hmap).mp hmem
  refine ⟨helement, hinside n a hn, ?_, ?_, ?_⟩
  · rintro c rfl
    exact hseen n c hn
  · rw [hassign, ← Option.not_isSome_iff_eq_none, h.assigned]
    omega
  · rw [hout, ← Option.not_isSome_iff_eq_none, h.handed]
    omega

variable {e₁ e₂ e₃ : Engine U} {nodes : List (NodeId × ContextId)}

/-- Elements in a known scope have not handed anything on yet. -/
theorem AtRound.open_of_evaluates (hd : d.WellFormed) (h : AtRound o d typeLibrary i e)
    (hmap : ready.map (·.1) = (d.frontierAt i).filter (d.level · ≤ i + 1))
    (hevals : Evaluates o d e₁ ready (nodes, e₂)) (hout : e₁.outgoing = e.outgoing)
    (n : NodeId) (c : ContextId) (hn : (n, c) ∈ nodes) : e₂.Open d n c := by
  obtain ⟨ha, hscope⟩ := hevals.known n c hn
  have hnode : n ∈ nodes.map (·.1) := List.mem_map.mpr ⟨_, hn, rfl⟩
  have hlevel := ((mem_ready_iff hd.toIsTree hmap).mp (hevals.sublist.subset hnode)).2.1
  refine ⟨ha, hscope, ?_, hevals.declared n c hn⟩
  rw [← Option.not_isSome_iff_eq_none, hevals.outgoing, hout, h.handed]
  rintro (hold | ⟨-, hnot⟩)
  · omega
  · exact hnot hnode

/-- Ready elements have been assigned a context: those up to the next level have one. -/
theorem AtRound.assigned_succ (hd : d.WellFormed) (h : AtRound o d typeLibrary i e)
    (hmap : ready.map (·.1) = (d.frontierAt i).filter (d.level · ≤ i + 1))
    (hevals : Evaluates o d e₁ ready (nodes, e₂)) (hassign : e₁.assignments = e.assignments)
    (n : NodeId) :
    (e₂.assignments.get? n).isSome ↔ (d.bindingNode? n).isSome ∧ d.level n ≤ i + 1 := by
  rw [hevals.assignments, hassign, h.assigned, mem_ready_iff hd.toIsTree hmap, and_level_le_succ]

/-- Ready elements hand something on, at once or after the values of their bindings are known:
those up to the next level do so. -/
theorem AtRound.handed_succ (hd : d.WellFormed) (h : AtRound o d typeLibrary i e)
    (hmap : ready.map (·.1) = (d.frontierAt i).filter (d.level · ≤ i + 1))
    (hevals : Evaluates o d e₁ ready (nodes, e₂)) (hout : e₁.outgoing = e.outgoing)
    (hsettled : ∀ n, (e₃.outgoing.get? n).isSome ↔
      (e₂.outgoing.get? n).isSome ∨ n ∈ nodes.map (·.1)) : e₃.HandedUpTo d (i + 1) := by
  intro n
  rw [hsettled, hevals.outgoing, hout, or_assoc, h.handed, ← and_level_le_succ,
    ← mem_ready_iff hd.toIsTree hmap]
  refine or_congr_right ⟨?_, fun hn => ?_⟩
  · rintro (⟨hn, -⟩ | hn)
    · exact hn
    · exact hevals.sublist.subset hn
  · by_cases hnode : n ∈ nodes.map (·.1)
    · exact .inr hnode
    · exact .inl ⟨hn, hnode⟩

end Ready

/-- A round over the elements that are left after `i` rounds, from the state `e` to the state `e₄`.
It finds the ready elements, asks for the scopes of their contexts, evaluates them, and asks for the
values of the bindings of those in known scopes. -/
structure Round (o : Oracle U) (d : Document) (typeLibrary : String) (i : Nat)
    (ready : List (NodeId × Assignment)) (nodes : List (NodeId × ContextId))
    (e e₁ e₂ e₃ e₄ : Engine U) : Prop where
  ready_eq : (e.begun (d.frontierAt i)).ready d (d.frontierAt i) = (ready, e₁)
  finds : Finds o d (e.begun (d.frontierAt i)) (ready, e₁)
  next : ready.map (·.1) = (d.frontierAt i).filter (d.level · ≤ i + 1)
  scopes : Part o d typeLibrary e₁ e₂
  scopes_assignments : e₂.assignments = e₁.assignments
  scopes_outgoing : e₂.outgoing = e₁.outgoing
  scopes_probed : ProbesScopes o d ready e₁ e₂
  evaluate_eq : e₂.evaluate d ready = (nodes, e₃)
  evaluates : Evaluates o d e₂ ready (nodes, e₃)
  opened : ∀ n c, (n, c) ∈ nodes → e₃.Open d n c
  values : Part o d typeLibrary e₃ e₄
  values_assignments : e₄.assignments = e₃.assignments
  values_outgoing : ∀ n, (e₄.outgoing.get? n).isSome ↔
    (e₃.outgoing.get? n).isSome ∨ n ∈ nodes.map (·.1)
  values_probed : ProbesBindings o d nodes e₃ e₄

theorem AtRound.ensures_phases (hd : d.WellFormed) {i : Nat} (h : AtRound o d typeLibrary i e)
    (hne : d.frontierAt i ≠ []) :
    Resolving.Ensures (round o d (d.frontierAt i)) e
      (fun rest e' => rest = d.frontierAt (i + 1) ∧ ∃ ready nodes e₁ e₂ e₃,
        Round o d typeLibrary i ready nodes e e₁ e₂ e₃ e')
      (Failed o d typeLibrary) := by
  unfold round
  refine .bind (Resolving.ensures_modify (.bind (Resolving.ensures_modifyGet ?_)))
  obtain ⟨hfinds, hmap⟩ := h.finds hd (d.frontierAt i)
  have hreach := h.reach.begin (d.frontierAt i)
  have hbegun : { e with frontierSizes := e.frontierSizes ++ [(d.frontierAt i).length] } =
      e.begun (d.frontierAt i) := rfl
  rw [hbegun]
  generalize hready : (e.begun (d.frontierAt i)).ready d (d.frontierAt i) = r at hfinds hmap ⊢
  obtain ⟨ready, e₁⟩ := r
  dsimp only at hmap ⊢
  rw [if_neg (by simpa using ready_ne_nil hd.toIsTree hmap hne)]
  -- the scopes of the contexts of ready elements
  have hscopes := ensures_probeScopes (hreach.updates hfinds.updates)
    (hfinds.updates.answers h.answers) (hfinds.updates.looked h.looked) hfinds.inside
  refine .bind (hscopes.mono ?_ fun _ _ hf => hf)
  rintro _ e₂ ⟨hpart, hassign, hout, hseen, hprobed⟩
  have hassign₂ : e₂.assignments = e.assignments := hassign.trans hfinds.assignments
  have hout₂ : e₂.outgoing = e.outgoing := hout.trans hfinds.outgoing
  -- their assignment
  refine .bind (Resolving.ensures_modifyGet ?_)
  have hinside : ∀ n a, (n, a) ∈ ready → ∃ p, d.parent? n = some p ∧ e₂.inside? d p = some a := by
    intro n a hn
    obtain ⟨p, hp, hin⟩ := hfinds.inside n a hn
    exact ⟨p, hp, hpart.grows.inside? hin⟩
  have hevals := h.evaluates hd hpart.reach hmap hinside hseen hassign₂ hout₂
  generalize hevaluate : e₂.evaluate d ready = r at hevals ⊢
  obtain ⟨nodes, e₃⟩ := r
  have hopen := h.open_of_evaluates hd hmap hevals hout₂
  -- what they hand to their content
  refine .bind ((ensures_probeBindings hd (hpart.reach.updates hevals.updates)
    (hevals.updates.answers hpart.answers) (hevals.updates.looked hpart.looked)
    (hevals.sublist.nodup (nodup_ready hd.toIsTree hmap)) hopen hevals.pending).mono ?_
    fun _ _ hf => hf)
  rintro _ e₄ ⟨hpart', hassign', hout', hprobed'⟩
  exact Resolving.ensures_pure ⟨filter_frontierAt hmap, ready, nodes, e₁, e₂, e₃, hready, hfinds,
    hmap, hpart, hassign, hout, hprobed, hevaluate, hevals, hopen, hpart', hassign', hout',
    hprobed'⟩

theorem Round.atRound (hd : d.WellFormed) {i : Nat} {ready : List (NodeId × Assignment)}
    {nodes : List (NodeId × ContextId)} {e₁ e₂ e₃ e₄ : Engine U}
    (hround : Round o d typeLibrary i ready nodes e e₁ e₂ e₃ e₄)
    (h : AtRound o d typeLibrary i e) : AtRound o d typeLibrary (i + 1) e₄ := by
  have hevals := hround.evaluates
  have hassign : e₂.assignments = e.assignments :=
    hround.scopes_assignments.trans hround.finds.assignments
  have hout : e₂.outgoing = e.outgoing := hround.scopes_outgoing.trans hround.finds.outgoing
  refine ⟨hround.values.reach, ?_, ?_, h.handed_succ hd hround.next hevals hout
    hround.values_outgoing, ?_, ?_, hround.values.answers, hround.values.looked⟩
  · obtain ⟨a, ha⟩ := Option.isSome_iff_exists.mp h.root
    have hgrows := ((hround.finds.updates.grows.trans hround.scopes.grows).trans
      hevals.updates.grows).trans hround.values.grows
    exact Option.isSome_of_eq_some (hgrows.typeContexts _ a ha)
  · rw [hround.values_assignments]
    exact h.assigned_succ hd hround.next hevals hassign
  · rw [hround.values.frontierSizes, hevals.updates.quiet.frontierSizes,
      hround.scopes.frontierSizes, hround.finds.updates.quiet.frontierSizes, begun, h.sizes,
      List.range_succ, List.map_append]
    rfl
  · -- each of the two parts makes at most one revision
    have h₁ := hround.values.revisions
    have h₂ := hround.scopes.revisions
    rw [hevals.updates.quiet.revisions] at h₁
    rw [hround.finds.updates.quiet.revisions] at h₂
    have h₃ := h.revisions
    dsimp only [begun] at h₂
    omega

/-- A round goes one level deeper. -/
theorem AtRound.ensures_round (hd : d.WellFormed) {i : Nat} (h : AtRound o d typeLibrary i e)
    (hne : d.frontierAt i ≠ []) :
    Resolving.Ensures (round o d (d.frontierAt i)) e
      (fun rest e' => rest = d.frontierAt (i + 1) ∧ AtRound o d typeLibrary (i + 1) e')
      (Failed o d typeLibrary) := by
  refine (h.ensures_phases hd hne).mono ?_ fun _ _ hf => hf
  rintro rest e' ⟨hrest, ready, nodes, e₁, e₂, e₃, hround⟩
  exact ⟨hrest, hround.atRound hd h⟩

/-! ### All rounds -/

theorem atRound_initial (hd : d.WellFormed) :
    AtRound o d typeLibrary 0 (initial d typeLibrary) := by
  have hupdate := update_initial (o := o) hd.toIsTree typeLibrary
  have hreach : Reach o d typeLibrary (initial d typeLibrary) := .update .blank hupdate
  have hcalls : (initial d typeLibrary : Engine U).calls = [] := hupdate.quiet.calls
  -- nothing is fixed but the context of the root, and no element has level zero
  have hnone : ∀ n, ¬((d.bindingNode? n).isSome ∧ d.level n ≤ 0) := by
    rintro n ⟨hn, hlevel⟩
    have hmem := hd.toIsTree.mem_bindingNodes.mpr hn
    rw [← frontierAt_zero hd.toIsTree, mem_frontierAt hd.toIsTree] at hmem
    omega
  have htables : (initial d typeLibrary : Engine U).assignments = .empty ∧
      (initial d typeLibrary : Engine U).outgoing = .empty ∧
      ((initial d typeLibrary : Engine U).typeContexts.get? Document.root).isSome := by
    unfold initial
    cases d.viewmodel? <;> exact ⟨rfl, rfl, rfl⟩
  obtain ⟨hassign, hout, hroot⟩ := htables
  refine ⟨hreach, hroot, ?_, ?_, hupdate.quiet.frontierSizes, ?_, ?_, ?_⟩
  · intro n
    rw [hassign, Table.get?_empty]
    exact iff_of_false Bool.false_ne_true (hnone n)
  · intro n
    rw [hout, Table.get?_empty]
    exact iff_of_false Bool.false_ne_true (hnone n)
  · have hsources := hreach.traced.revisions
    rw [hcalls] at hsources
    exact Nat.le_of_eq hsources.symm
  · rintro c s ⟨unit, names, shapes, hcall, -⟩
    rw [hcalls] at hcall
    cases hcall
  · intro c hc
    rw [(Updates.scope_mem (.single hupdate))] at hc
    change .scope c ∈ (d.opening typeLibrary).declarations at hc
    rw [declarations_opening] at hc
    cases hc

/-- What every round carries over to the next level holds behind any number of rounds. -/
theorem ensures_roundsFor_of {I : Nat → Engine U → Prop} {F : OracleError → Engine U → Prop}
    (hround : ∀ i e, I i e → d.frontierAt i ≠ [] → Resolving.Ensures (round o d (d.frontierAt i)) e
      (fun rest e' => rest = d.frontierAt (i + 1) ∧ I (i + 1) e') F)
    (fuel : Nat) {i : Nat} (h : I i e) (hi : i ≤ d.height) :
    Resolving.Ensures (roundsFor o d fuel (d.frontierAt i)) e
      (fun rest e' => rest = d.frontierAt (min (i + fuel) d.height) ∧
        I (min (i + fuel) d.height) e') F := by
  induction fuel generalizing e i with
  | zero =>
    rw [Nat.add_zero, Nat.min_eq_left hi]
    cases hfrontier : d.frontierAt i with
    | nil => exact Resolving.ensures_pure ⟨rfl, h⟩
    | cons n frontier => exact Resolving.ensures_pure ⟨rfl, h⟩
  | succ fuel ih =>
    cases hfrontier : d.frontierAt i with
    | nil =>
      have hheight := Nat.le_antisymm hi (frontierAt_eq_nil_iff.mp hfrontier)
      rw [Nat.min_eq_right (by omega), ← hheight, hfrontier]
      exact Resolving.ensures_pure ⟨rfl, h⟩
    | cons n frontier =>
      have hne : d.frontierAt i ≠ [] := by
        rw [hfrontier]
        exact List.cons_ne_nil _ _
      have hlt : i + 1 ≤ d.height := by
        rw [Ne, frontierAt_eq_nil_iff] at hne
        omega
      have hnext := hround i e h hne
      rw [hfrontier] at hnext
      refine .bind (hnext.mono ?_ fun _ _ hf => hf)
      rintro rest e' ⟨rfl, h'⟩
      have hrest := ih h' hlt
      rw [Nat.add_right_comm, Nat.add_assoc] at hrest
      exact hrest

/-- Round by round, the elements that are left are those of deeper levels. -/
theorem AtRound.ensures_roundsFor (hd : d.WellFormed) (fuel : Nat) {i : Nat}
    (h : AtRound o d typeLibrary i e) (hi : i ≤ d.height) :
    Resolving.Ensures (roundsFor o d fuel (d.frontierAt i)) e
      (fun rest e' => rest = d.frontierAt (min (i + fuel) d.height) ∧
        AtRound o d typeLibrary (min (i + fuel) d.height) e')
      (Failed o d typeLibrary) :=
  ensures_roundsFor_of (fun _ _ h' hne => h'.ensures_round hd hne) fuel h hi

theorem rounds_eq (o : Oracle U) (d : Document) (fuel : Nat) (frontier : List NodeId) :
    rounds o d fuel frontier = (do let _ ← roundsFor o d fuel frontier; pure ()) := by
  induction fuel generalizing frontier with
  | zero =>
    cases frontier with
    | nil => rfl
    | cons n frontier => rfl
  | succ fuel ih =>
    cases frontier with
    | nil => rfl
    | cons n frontier =>
      rw [rounds, roundsFor, bind_assoc]
      · exact bind_congr fun rest => ih rest
      · exact List.cons_ne_nil n frontier

/-- There are rounds enough to go down to the deepest elements. -/
theorem ensures_rounds_of (hd : d.IsTree) {I : Nat → Engine U → Prop}
    {F : OracleError → Engine U → Prop}
    (hround : ∀ i e, I i e → d.frontierAt i ≠ [] → Resolving.Ensures (round o d (d.frontierAt i)) e
      (fun rest e' => rest = d.frontierAt (i + 1) ∧ I (i + 1) e') F)
    (hinitial : I 0 (initial d typeLibrary)) :
    Resolving.Ensures (rounds o d d.bindingNodes.length d.bindingNodes) (initial d typeLibrary)
      (fun _ e' => I d.height e') F := by
  rw [rounds_eq]
  have hrounds := ensures_roundsFor_of hround d.bindingNodes.length hinitial (Nat.zero_le _)
  rw [frontierAt_zero hd, Nat.zero_add, Nat.min_eq_right (height_le_length hd)] at hrounds
  refine .bind (hrounds.mono ?_ fun _ _ hf => hf)
  rintro rest e' ⟨-, h⟩
  exact Resolving.ensures_pure h

/-! ### The outcome -/

/-- The state after the last round: all elements are assigned. -/
structure Finished (o : Oracle U) (d : Document) (typeLibrary : String) (e : Engine U) :
    Prop where
  reach : Reach o d typeLibrary e
  assigned : ∀ n, (e.assignments.get? n).isSome ↔ (d.bindingNode? n).isSome
  handed : ∀ n, (e.outgoing.get? n).isSome ↔ (d.bindingNode? n).isSome
  answers : ∀ c s, ScopeAnswer o e.calls c s → e.scopes.get? c = some s
  sizes : e.frontierSizes = (List.range d.height).map fun j => (d.frontierAt j).length
  revisions : e.probe.revisions ≤ 2 * d.height + 1

/-- The outcome of a resolution that ends in the state `last`: the state `e` after the last round,
in which the type errors have been asked for as the last request. -/
structure Outcome (o : Oracle U) (d : Document) (typeLibrary : String) (r : Resolved)
    (last e : Engine U) (unit : U) : Prop where
  finished : Finished o d typeLibrary e
  request : e.Requests (.findings unit)
  answered : o.failure? (.findings unit) = none
  calls_eq : last.calls = e.calls ++ [.findings unit]
  last_probe : last.probe = e.probe
  contexts_eq : r.contexts = e.contexts
  assignments_eq : r.assignments = e.assignments
  outgoing_eq : r.outgoing = e.outgoing
  probe_eq : r.probe = e.probe.finish
  frontierSizes_eq : r.frontierSizes = e.frontierSizes
  diagnostics_eq : ∃ found : List Finding,
    last.diagnostics = e.diagnostics ++ found.filterMap (e.diagnostic? d)

/-- All elements are no deeper than the deepest ones. -/
theorem level_le_height (hd : d.IsTree) {n : NodeId} (hn : (d.bindingNode? n).isSome) :
    d.level n ≤ d.height :=
  List.le_max_of_le (List.mem_map_of_mem (hd.mem_bindingNodes.mpr hn)) (Nat.le_refl _)

theorem AtRound.finished (hd : d.WellFormed) (h : AtRound o d typeLibrary d.height e) :
    Finished o d typeLibrary e := by
  refine ⟨h.reach, ?_, ?_, h.answers, h.sizes, Nat.le_succ_of_le h.revisions⟩
  · intro n
    rw [h.assigned]
    exact and_iff_left_of_imp (level_le_height hd.toIsTree)
  · intro n
    rw [h.handed]
    exact and_iff_left_of_imp (level_le_height hd.toIsTree)

/-- A last revision asks for no scope. -/
theorem AtRound.finished_compiled (hd : d.WellFormed) (h : AtRound o d typeLibrary d.height e)
    {unit : U} (hreach : Reach o d typeLibrary (e.compiled unit)) :
    Finished o d typeLibrary (e.compiled unit) := by
  have hfinished := h.finished hd
  refine ⟨hreach, hfinished.assigned, hfinished.handed, ?_, h.sizes, ?_⟩
  · rintro c s ⟨unit', names, shapes, hcall, hanswer⟩
    rcases List.mem_append.mp hcall with hold | hnew
    · exact h.answers c s ⟨unit', names, shapes, hold, hanswer⟩
    · cases List.mem_singleton.mp hnew
  · exact Nat.succ_le_succ h.revisions

/-- The type errors are asked for once everything has been compiled. -/
theorem Finished.ensures_findings (h : Finished o d typeLibrary e)
    (hpending : e.probe.pending = "") :
    Resolving.Ensures
      (do
        let found ← Resolving.findings o
        modify fun e =>
          { e with diagnostics := e.diagnostics ++ found.filterMap (e.diagnostic? d) }
        let e ← get
        return (⟨e.contexts, e.assignments, e.outgoing, e.probe.finish, e.frontierSizes,
          e.diagnostics.filter d.timeline.allows⟩ : Resolved))
      e (fun r e' => ∃ unit, Outcome o d typeLibrary r e' e unit)
      (Failed o d typeLibrary) := by
  obtain ⟨unit, hunit⟩ := h.reach.unit_isSome hpending
  have hreq : e.Requests (.findings unit) := .findings hunit hpending
  refine .bind (Resolving.ensures_findings hunit ?_ ?_)
  · intro found hok
    refine .bind (Resolving.ensures_modify (.bind (Resolving.ensures_get ?_)))
    refine Resolving.ensures_pure ⟨unit, h, hreq, ?_, rfl, rfl, rfl, rfl, rfl, rfl, rfl, found, rfl⟩
    rw [Oracle.failure?, hok]
  · intro f hf
    exact failed_of_requests h.reach hreq (by rw [Oracle.failure?, hf]) rfl

/-- After the last round there is at most a last revision. -/
theorem AtRound.ensures_conclude (hd : d.WellFormed) (h : AtRound o d typeLibrary d.height e) :
    Resolving.Ensures (conclude o d) e
      (fun r e' => ∃ e₁ unit, (e₁ = e ∨ ∃ unit', e₁ = e.compiled unit') ∧
        Outcome o d typeLibrary r e' e₁ unit)
      (Failed o d typeLibrary) := by
  unfold conclude
  refine .bind (Resolving.ensures_get ?_)
  dsimp only
  split
  · next hpending =>
    have hne : e.probe.pending ≠ "" := by
      intro hempty
      rw [Probe.hasPending, hempty] at hpending
      cases hpending
    have hreq : e.Requests (.compile e.probe.commit.1 e.unit) := .compile hne
    refine .bind (Resolving.ensures_compile ?_ ?_)
    · intro unit hok
      refine ((h.finished_compiled hd (h.reach.compile hreq hok)).ensures_findings rfl).mono ?_
        fun _ _ hf => hf
      rintro r e' ⟨unit', houtcome⟩
      exact ⟨_, unit', .inr ⟨unit, rfl⟩, houtcome⟩
    · intro f hf
      exact failed_of_requests h.reach hreq (by rw [Oracle.failure?, hf]) rfl
  · next hpending =>
    rw [Probe.hasPending, Bool.not_eq_true', Bool.not_eq_false] at hpending
    refine ((h.finished hd).ensures_findings (String.isEmpty_iff.mp hpending)).mono ?_
      fun _ _ hf => hf
    rintro r e' ⟨unit, houtcome⟩
    exact ⟨e, unit, .inl rfl, houtcome⟩

/-- What every round carries over holds in the state before the last revision, if the resolution
succeeds. -/
theorem ensures_resolving_of (hd : d.WellFormed) {I : Nat → Engine U → Prop}
    (hround : ∀ i e, I i e → d.frontierAt i ≠ [] → Resolving.Ensures (round o d (d.frontierAt i)) e
      (fun rest e' => rest = d.frontierAt (i + 1) ∧ I (i + 1) e') (Failed o d typeLibrary))
    (hinitial : I 0 (initial d typeLibrary))
    (hatRound : ∀ e, I d.height e → AtRound o d typeLibrary d.height e) :
    Resolving.Ensures (resolving o d) (initial d typeLibrary)
      (fun r e' => ∃ e e₁ unit, I d.height e ∧ (e₁ = e ∨ ∃ unit', e₁ = e.compiled unit') ∧
        Outcome o d typeLibrary r e' e₁ unit)
      (Failed o d typeLibrary) := by
  refine .bind ((ensures_rounds_of hd.toIsTree hround hinitial).mono ?_ fun _ _ hf => hf)
  intro _ e h
  refine ((hatRound e h).ensures_conclude hd).mono ?_ fun _ _ hf => hf
  rintro r e' ⟨e₁, unit, hlast, houtcome⟩
  exact ⟨e, e₁, unit, h, hlast, houtcome⟩

/-- A resolution succeeds with all elements assigned, or a request fails. -/
theorem ensures_resolving (hd : d.WellFormed) :
    Resolving.Ensures (resolving o d) (initial d typeLibrary)
      (fun r e' => ∃ e unit, Outcome o d typeLibrary r e' e unit)
      (Failed o d typeLibrary) := by
  refine (ensures_resolving_of hd (fun _ _ h hne => AtRound.ensures_round hd h hne)
    (atRound_initial hd) fun _ h => h).mono ?_ fun _ _ hf => hf
  rintro r e' ⟨-, e, unit, -, -, houtcome⟩
  exact ⟨e, unit, houtcome⟩

end Engine

/-- A resolution has an outcome, or it ends with the failure of a request. -/
theorem runResolve_cases (o : Oracle U) {d : Document} (hd : d.WellFormed)
    (typeLibrary : String) :
    (∃ r e unit, (runResolve o d typeLibrary).1 = .ok r ∧
      Engine.Outcome o d typeLibrary r (runResolve o d typeLibrary).2 e unit) ∨
    ∃ f, (runResolve o d typeLibrary).1 = .error f ∧
      Engine.Failed o d typeLibrary f (runResolve o d typeLibrary).2 := by
  have h : Resolving.Ensures (resolving o d) (.initial d typeLibrary) _ _ :=
    Engine.ensures_resolving hd
  unfold Resolving.Ensures at h
  unfold runResolve
  generalize (resolving o d).run.run (.initial d typeLibrary) = run at h ⊢
  obtain ⟨result, e'⟩ := run
  cases result with
  | ok r =>
    obtain ⟨e, unit, houtcome⟩ := h
    exact .inl ⟨r, e, unit, rfl, houtcome⟩
  | error f => exact .inr ⟨f, rfl, h⟩

end ViewLint
