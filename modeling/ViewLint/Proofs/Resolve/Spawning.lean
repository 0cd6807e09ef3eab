import ViewLint.Proofs.Document.Timeline
import ViewLint.Proofs.Resolve.Outcome
import ViewLint.Proofs.Resolve.Record

/-!
# Which elements open contexts

An element opens a context for its content if exactly one of its bindings changes the type in scope.
Over a whole resolution this accounts for every context that bindings have made, and for every
diagnostic that is reported on contexts, elements and bindings: none is missing, and none is
reported twice.

## Main definitions

* `EvaluatedIn`, `HandsNew` — elements that are evaluated, and that open a context.
* `ReportedOnce` — the diagnostics of a kind are one for each of the things that call for them.
* `SpawnsByRule` — contexts and diagnostics are those of the rules.

## Main results

* `Engine.Outcome.evaluatedIn_iff` — the elements that have been settled are those in known scopes.
* `Engine.Scoped.surrounds_injective` — a context in which nothing is in scope surrounds the content
  of one node.
* `resolve_spawns_by_rule` — every resolution that succeeds keeps to the rules.
-/

namespace ViewLint

variable {U : Type}

/-- An element is evaluated in the context that it is assigned to, where the scope is known. -/
def EvaluatedIn (k : Knowledge) (r : Resolved) (n : NodeId) (c : ContextId) : Prop :=
  r.assignments.get? n = some (.context c) ∧
    ∃ type members, k (scopeName c) = some (.known type members)

/-- An element hands a context to its content that is not its own. -/
def HandsNew (r : Resolved) (n : NodeId) (c : ContextId) : Prop :=
  r.outgoing.get? n = some (.context c) ∧ r.assignments.get? n ≠ some (.context c)

/-- The first element of a view that is assigned to a context. -/
def Resolved.firstIn? (r : Resolved) (d : Document) (c : ContextId) : Option NodeId :=
  d.bindingNodes.find? fun n => r.assignments.get? n = some (.context c)

/-- The diagnostics of a kind are one for each of the things that call for them. -/
def ReportedOnce {α : Type} (ds : List Diagnostic) (kind : Kind) (P : α → Prop)
    (report : α → Diagnostic) : Prop :=
  ∃ xs : List α, xs.Nodup ∧ (∀ x, x ∈ xs ↔ P x) ∧ ds.filter (·.isOf kind) = xs.map report

/-- Contexts and diagnostics are those of the rules, by what the type checker has told. -/
structure SpawnsByRule (d : Document) (k : Knowledge) (r : Resolved) (ds : List Diagnostic) :
    Prop where
  /-- The scope of every context that elements are assigned to has been told. -/
  scope_told : ∀ n c, r.assignments.get? n = some (.context c) → (k (scopeName c)).isSome
  /-- So have the values of all bindings that are evaluated, and of their contexts. -/
  values_told : ∀ n c, EvaluatedIn k r n c → (k (contextName c)).isSome ∧
    ∀ b ∈ d.bindingsAt n, (k (bindingName b.id)).isSome
  /-- An element opens a context just if it is evaluated, has no conflict, and exactly one of its
  bindings changes the type in scope. -/
  spawns_iff : ∀ n content, d.bindingNode? n = some content →
    ((∃ c', HandsNew r n c') ↔ ∃ c, EvaluatedIn k r n c ∧ content.conflicting = false ∧
      (d.changing k n c).length = 1)
  /-- The context comes from that binding, inside the context of the element. -/
  origin : ∀ n c', HandsNew r n c' → ∃ c b, EvaluatedIn k r n c ∧ d.changing k n c = [b] ∧
    r.contexts.origin? c' = some (.binding b.id) ∧ r.contexts.parent? c' = some c
  /-- Every context that comes from a binding has been opened by one element. -/
  opener : ∀ c' b, r.contexts.origin? c' = some (.binding b) → ∃! n, HandsNew r n c'
  /-- Two or more bindings that change the type are reported on their element. -/
  competing : ReportedOnce ds .multipleGeneratingBindings
    (fun n => ∃ content c, d.bindingNode? n = some content ∧ EvaluatedIn k r n c ∧
      content.conflicting = false ∧ 2 ≤ (d.changing k n c).length)
    fun n => .ofKind .multipleGeneratingBindings d.file ((d.bindingNode? n).map (·.location)) []
  /-- An alias that cannot be determined is reported on its binding. -/
  undeterminable : ReportedOnce ds .unknownScope
    (fun b => (∃ n c, EvaluatedIn k r n c ∧ b ∈ d.bindingsAt n) ∧
      b.itemAlias = some .undeterminable)
    fun b => b.report d .unknownScope
  /-- A value of unknown type is reported on its binding, unless the alias is. -/
  untyped : ReportedOnce ds .bindingUnknown
    (fun b => (∃ n c, EvaluatedIn k r n c ∧ b ∈ d.bindingsAt n) ∧
      b.itemAlias ≠ some .undeterminable ∧ k.type? (bindingName b.id) = none)
    fun b => b.report d .bindingUnknown
  /-- A context in which nothing is known to be in scope is reported on the first element in it. -/
  unscoped : ReportedOnce ds .contextUnknown
    (fun c => (∃ n, r.assignments.get? n = some (.context c)) ∧ k (scopeName c) = some .dynamic)
    fun c => .ofKind .contextUnknown d.file
      ((r.firstIn? d c).bind fun n => (d.bindingNode? n).map (·.location)) []

/-! ### Lists -/

/-- What is found for some members of a list, if it only depends on the member. -/
theorem filterMap_eq_map {α β : Type} {g : α → Option β} {f : α → β} {xs : List α}
    (h : ∀ x ∈ xs, ∀ y, g x = some y → f x = y) :
    xs.filterMap g = (xs.filter fun x => (g x).isSome).map f := by
  induction xs with
  | nil => rfl
  | cons x xs ih =>
    obtain ⟨hx, hxs⟩ := List.forall_mem_cons.mp h
    rw [List.filterMap_cons, List.filter_cons, ih hxs]
    cases hg : g x with
    | none => rfl
    | some y => simp [hx y hg]

/-- The first member of an increasing list that has a property is the smallest one. -/
theorem find?_eq_some_of_le {xs : List Nat} (hxs : xs.Pairwise (· < ·)) {p : Nat → Bool} {n : Nat}
    (hmem : n ∈ xs) (hn : p n = true) (hle : ∀ m ∈ xs, p m = true → n ≤ m) :
    xs.find? p = some n := by
  induction xs with
  | nil => cases hmem
  | cons x xs ih =>
    rw [List.pairwise_cons] at hxs
    obtain ⟨hx, hrest⟩ := List.forall_mem_cons.mp hle
    rcases List.mem_cons.mp hmem with rfl | hmem
    · exact List.find?_cons_of_pos hn
    · have hnot : ¬p x = true := fun hpx => Nat.not_le_of_lt (hxs.1 n hmem) (hx hpx)
      rw [List.find?_cons_of_neg hnot]
      exact ih hxs.2 hmem hrest

theorem ReportedOnce.congr {α : Type} {ds : List Diagnostic} {kind : Kind} {P Q : α → Prop}
    {report : α → Diagnostic} (h : ReportedOnce ds kind P report) (hPQ : ∀ x, P x ↔ Q x) :
    ReportedOnce ds kind Q report := by
  obtain ⟨xs, hnodup, hmem, heq⟩ := h
  exact ⟨xs, hnodup, fun x => (hmem x).trans (hPQ x), heq⟩

theorem Document.mem_of_spawned? {d : Document} {k : Knowledge} {n : NodeId} {c : ContextId}
    {b : Binding} (h : d.spawned? k n c = some b) : b ∈ d.bindingsAt n := by
  cases hn : d.bindingNode? n with
  | none =>
    rw [Document.spawned?, hn] at h
    cases h
  | some content =>
    have hchanging := ((Document.spawned?_eq_some hn).mp h).2
    exact List.mem_of_mem_filter (hchanging ▸ List.mem_singleton_self b : b ∈ d.changing k n c)

/-! ### Contexts without a scope -/

/-- A context comes from a node: from the node itself, or from a binding on it. -/
def Origin.StandsOn (d : Document) (p : NodeId) : Origin → Prop
  | .root q => q = p
  | .directive q => q = p
  | .binding b => b ∈ d.bindingsOf p

theorem Origin.StandsOn.unique {d : Document} (hd : d.WellFormed) {p q : NodeId} {origin : Origin}
    (hp : origin.StandsOn d p) (hq : origin.StandsOn d q) : p = q := by
  cases origin with
  | root => exact Eq.trans (Eq.symm hp) hq
  | directive => exact Eq.trans (Eq.symm hp) hq
  | binding => exact hd.node_unique hp hq

namespace Engine

variable {o : Oracle U} {d : Document} {typeLibrary : String} {r : Resolved} {last e : Engine U}
  {unit : U} {looks : List (ContextId × NodeId)} {settled : List (NodeId × ContextId)}

/-- Where nothing is in scope, no element hands its own context on. -/
theorem Scoped.exists_origin (h : e.Scoped o d) {c : ContextId}
    (hc : e.scopes.get? c = some .dynamic) {p : NodeId}
    (hp : Surrounds d e.contexts e.outgoing p (.context c)) :
    ∃ origin, e.contexts.origin? c = some origin ∧ origin.StandsOn d p := by
  cases hp with
  | element _ hout =>
    obtain ⟨⟨a, -, hands⟩, -⟩ := h.handed p _ hout
    cases hands with
    | same hscope => cases hc.symm.trans hscope
    | child _ hb horigin _ => exact ⟨_, horigin, hb⟩
  | viewmodel _ horigin _ => exact ⟨_, horigin, rfl⟩
  | directive _ _ _ horigin _ => exact ⟨_, horigin, rfl⟩

/-- A context in which nothing is in scope surrounds the content of one node. -/
theorem Scoped.surrounds_injective (h : e.Scoped o d) (hd : d.WellFormed) {c : ContextId}
    (hc : e.scopes.get? c = some .dynamic) {p q : NodeId}
    (hp : Surrounds d e.contexts e.outgoing p (.context c))
    (hq : Surrounds d e.contexts e.outgoing q (.context c)) : p = q := by
  obtain ⟨origin, horigin, hstands⟩ := h.exists_origin hc hp
  obtain ⟨origin', horigin', hstands'⟩ := h.exists_origin hc hq
  cases horigin.symm.trans horigin'
  exact hstands.unique hd hstands'

/-! ### Outcomes -/

/-- Nothing is told in answer to the last request. -/
theorem Outcome.told_eq (h : Outcome o d typeLibrary r last e unit) :
    o.told last.calls = o.told e.calls := by
  funext name
  rw [h.calls_eq, Oracle.told_append]
  exact Option.or_none

/-- The findings of the type checker come under no kind of the linter. -/
theorem Outcome.filter_isOf (h : Outcome o d typeLibrary r last e unit) (kind : Kind) :
    last.diagnostics.filter (·.isOf kind) = e.diagnostics.filter (·.isOf kind) := by
  obtain ⟨found, hfound⟩ := h.diagnostics_eq
  have hnil : (found.filterMap (e.diagnostic? d)).filter (·.isOf kind) = [] := by
    rw [List.filter_eq_nil_iff]
    intro x hx
    obtain ⟨f, -, hf⟩ := List.mem_filterMap.mp hx
    unfold diagnostic? at hf
    split at hf
    · cases hf
      rw [Diagnostic.isOf_ofFinding]
      exact Bool.false_ne_true
    · cases hf
  rw [hfound, List.filter_append, hnil, List.append_nil]

/-- The scope of a context that an element is assigned to has been learned. -/
theorem Outcome.seen (h : Outcome o d typeLibrary r last e unit) {n : NodeId} {c : ContextId}
    (hassign : r.assignments.get? n = some (.context c)) : (e.scopes.get? c).isSome :=
  (h.finished.reach.scoped.assigned n _ (h.assignments_eq ▸ hassign)).2.2 c rfl

/-- The elements that have been settled are those in known scopes. -/
theorem Outcome.evaluatedIn_iff (h : Outcome o d typeLibrary r last e unit)
    (hlooks : e.RecordsLooks o d looks) (hsettled : e.RecordsSettled o d settled) {n : NodeId}
    {c : ContextId} : EvaluatedIn (o.told e.calls) r n c ↔ (n, c) ∈ settled := by
  rw [EvaluatedIn, hsettled.mem_iff, ← h.assignments_eq, ← h.outgoing_eq]
  refine and_congr_right fun hassign => ?_
  have hnode := (h.finished.reach.scoped.assigned n _ (h.assignments_eq ▸ hassign)).1
  rw [hlooks.scope c ((hlooks.seen c).mpr (h.seen hassign))]
  obtain ⟨a, ha⟩ := Option.isSome_iff_exists.mp ((h.finished.handed n).mpr hnode)
  rw [← h.outgoing_eq] at ha
  have hands := h.hands hassign ha
  constructor
  · rintro ⟨type, members, hscope⟩
    cases hands with
    | dynamic hdynamic => cases hscope.symm.trans hdynamic
    | same _ => exact ⟨_, ha⟩
    | child _ _ _ _ => exact ⟨_, ha⟩
  · rintro ⟨c', hc'⟩
    cases ha.symm.trans hc'
    cases hands with
    | same hscope => exact ⟨_, _, hscope⟩
    | child hscope _ _ _ => exact ⟨_, _, hscope⟩

/-- An element that opens a context has been settled, with a binding that opens it. -/
theorem Outcome.of_handsNew (h : Outcome o d typeLibrary r last e unit)
    (hsettled : e.RecordsSettled o d settled) {n : NodeId} {c' : ContextId}
    (hnew : HandsNew r n c') :
    ∃ c b, (n, c) ∈ settled ∧ d.spawned? (o.told e.calls) n c = some b ∧
      r.contexts.origin? c' = some (.binding b.id) ∧ r.contexts.parent? c' = some c := by
  obtain ⟨hout, hne⟩ := hnew
  rw [h.outgoing_eq] at hout
  rw [h.assignments_eq] at hne
  obtain ⟨⟨a, ha, hands⟩, -⟩ := h.finished.reach.scoped.handed n _ hout
  obtain ⟨c, rfl⟩ : ∃ c, a = .context c := by
    cases hands with
    | same _ => exact ⟨_, rfl⟩
    | child _ _ _ _ => exact ⟨_, rfl⟩
  have hmem := (hsettled.mem_iff n c).mpr ⟨ha, c', hout⟩
  have hhands := hsettled.handsOn n c hmem
  unfold HandsOn at hhands
  rw [h.contexts_eq]
  split at hhands
  · next b hb =>
    obtain ⟨c'', -, hout', horigin, hparent⟩ := hhands
    cases hout'.symm.trans hout
    exact ⟨c, b, hmem, hb, horigin, hparent⟩
  · cases hhands.symm.trans hout
    exact absurd ha hne

/-- A settled element with a binding that opens a context opens it. -/
theorem Outcome.exists_handsNew (h : Outcome o d typeLibrary r last e unit)
    (hsettled : e.RecordsSettled o d settled) {n : NodeId} {c : ContextId} {b : Binding}
    (hn : (n, c) ∈ settled) (hb : d.spawned? (o.told e.calls) n c = some b) :
    ∃ c', HandsNew r n c' ∧ e.outgoing.get? n = some (.context c') := by
  have hhands := hsettled.handsOn n c hn
  rw [HandsOn, hb] at hhands
  obtain ⟨c', hne, hout, -⟩ := hhands
  refine ⟨c', ⟨h.outgoing_eq ▸ hout, ?_⟩, hout⟩
  rw [h.assignments_eq, ((hsettled.mem_iff n c).mp hn).1]
  rintro ⟨⟩
  exact hne rfl

/-- A context that comes from a binding has been opened by one element. -/
theorem Outcome.existsUnique_handsNew (hd : d.WellFormed)
    (h : Outcome o d typeLibrary r last e unit) (hsettled : e.RecordsSettled o d settled)
    {c' : ContextId} {b : BindingId} (hc' : r.contexts.origin? c' = some (.binding b)) :
    ∃! n, HandsNew r n c' := by
  obtain ⟨n, c, x, hn, hx, rfl, hout⟩ := hsettled.opened c' b (h.contexts_eq ▸ hc')
  obtain ⟨c'', hnew, hout'⟩ := h.exists_handsNew hsettled hn hx
  cases hout.symm.trans hout'
  refine ⟨n, hnew, ?_⟩
  intro m hm
  -- the binding stands on both elements
  obtain ⟨c₁, y, -, hy, horigin, -⟩ := h.of_handsNew hsettled hm
  have hid : x.id = y.id := Origin.binding.inj (Option.some.inj (hc'.symm.trans horigin))
  have hxn := ((Document.mem_bindingsAt hd).mp (Document.mem_of_spawned? hx)).1
  have hym := ((Document.mem_bindingsAt hd).mp (Document.mem_of_spawned? hy)).1
  exact hd.node_unique (hid ▸ hym) hxn

/-! ### Diagnostics of outcomes -/

/-- What comes under a kind, but for unknown contexts, is reported on settled elements. -/
theorem RecordsSettled.filter_isOf (h : e.RecordsSettled o d settled) {kind : Kind}
    (hkind : kind ≠ .contextUnknown) :
    e.diagnostics.filter (·.isOf kind) =
      settled.flatMap fun x => (d.complaints (o.told e.calls) x.1 x.2).filter (·.isOf kind) := by
  have hfilter : e.diagnostics.filter (·.isOf kind) =
      (e.diagnostics.filter fun x => !x.isOf .contextUnknown).filter (·.isOf kind) := by
    rw [List.filter_filter]
    refine List.filter_congr ?_
    intro x _
    cases hx : x.isOf kind with
    | false => rfl
    | true =>
      have hnot : ¬x.isOf .contextUnknown = true := fun hx' => hkind (Diagnostic.isOf_unique hx hx')
      rw [Bool.eq_false_of_not_eq_true hnot]
      rfl
  rw [hfilter, h.reports, List.filter_flatMap]

/-- Competing bindings are reported once on their element. -/
theorem Outcome.competing (h : Outcome o d typeLibrary r last e unit)
    (hlooks : e.RecordsLooks o d looks) (hsettled : e.RecordsSettled o d settled) :
    ReportedOnce last.diagnostics .multipleGeneratingBindings
      (fun n => ∃ content c, d.bindingNode? n = some content ∧
        EvaluatedIn (o.told e.calls) r n c ∧ content.conflicting = false ∧
        2 ≤ (d.changing (o.told e.calls) n c).length)
      fun n => .ofKind .multipleGeneratingBindings d.file
        ((d.bindingNode? n).map (·.location)) [] := by
  refine ⟨(settled.filter fun x => (d.competition? (o.told e.calls) x.1 x.2).isSome).map (·.1),
    ?_, ?_, ?_⟩
  · exact (List.filter_sublist.map _).nodup hsettled.nodup
  · intro n
    simp only [List.mem_map, List.mem_filter, h.evaluatedIn_iff hlooks hsettled]
    constructor
    · rintro ⟨⟨n, c⟩, ⟨hn, hsome⟩, rfl⟩
      obtain ⟨x, hx⟩ := Option.isSome_iff_exists.mp hsome
      cases hcontent : d.bindingNode? n with
      | none =>
        rw [Document.competition?, hcontent] at hx
        cases hx
      | some content =>
        obtain ⟨⟨hconflicting, hmany⟩, -⟩ := (Document.competition?_eq_some hcontent).mp hx
        exact ⟨content, c, rfl, hn, hconflicting, hmany⟩
    · rintro ⟨content, c, hcontent, hn, hconflicting, hmany⟩
      refine ⟨(n, c), ⟨hn, ?_⟩, rfl⟩
      exact Option.isSome_of_eq_some
        ((Document.competition?_eq_some hcontent).mpr ⟨⟨hconflicting, hmany⟩, rfl⟩)
  · have hcomplaints : ∀ x : NodeId × ContextId, (d.complaints (o.told e.calls) x.1 x.2).filter
        (·.isOf .multipleGeneratingBindings) =
          (d.competition? (o.told e.calls) x.1 x.2).toList := by
      intro x
      rw [d.filter_complaints, if_pos rfl,
        d.filter_problem?_eq_nil _ _ .multipleGeneratingBindings (by decide) (by decide)]
      rfl
    have hkind : Kind.multipleGeneratingBindings ≠ .contextUnknown := by decide
    rw [h.filter_isOf, hsettled.filter_isOf hkind, List.map_map]
    simp only [hcomplaints]
    rw [← List.filterMap_eq_flatMap_toList]
    refine filterMap_eq_map ?_
    rintro ⟨n, c⟩ - x hx
    cases hcontent : d.bindingNode? n with
    | none =>
      rw [Document.competition?, hcontent] at hx
      cases hx
    | some content =>
      rw [← ((Document.competition?_eq_some hcontent).mp hx).2, Function.comp_apply, hcontent]
      rfl

/-- What is wrong with a binding is reported once. -/
theorem Outcome.reportedOnce_binding (hd : d.WellFormed)
    (h : Outcome o d typeLibrary r last e unit) (hlooks : e.RecordsLooks o d looks)
    (hsettled : e.RecordsSettled o d settled) (kind : Kind) (hcontext : kind ≠ .contextUnknown)
    (hcompeting : kind ≠ .multipleGeneratingBindings) :
    ReportedOnce last.diagnostics kind
      (fun b => (∃ n c, EvaluatedIn (o.told e.calls) r n c ∧ b ∈ d.bindingsAt n) ∧
        b.problem? (o.told e.calls) = some kind)
      fun b => b.report d kind := by
  refine ⟨settled.flatMap fun x =>
    (d.bindingsAt x.1).filter fun b => b.problem? (o.told e.calls) = some kind, ?_, ?_, ?_⟩
  · rw [List.nodup_flatMap]
    refine ⟨fun x _ => (Document.nodup_bindingsAt hd x.1).filter _, ?_⟩
    have hnodup := hsettled.nodup
    rw [List.Nodup, List.pairwise_map] at hnodup
    refine hnodup.imp ?_
    intro x y hne b hx hy
    -- a binding stands on one element
    have hx' := ((Document.mem_bindingsAt hd).mp (List.mem_of_mem_filter hx)).1
    have hy' := ((Document.mem_bindingsAt hd).mp (List.mem_of_mem_filter hy)).1
    exact hne (hd.node_unique hx' hy')
  · intro b
    simp only [List.mem_flatMap, List.mem_filter, decide_eq_true_eq,
      h.evaluatedIn_iff hlooks hsettled]
    constructor
    · rintro ⟨⟨n, c⟩, hn, hb, hproblem⟩
      exact ⟨⟨n, c, hn, hb⟩, hproblem⟩
    · rintro ⟨⟨n, c, hn, hb⟩, hproblem⟩
      exact ⟨(n, c), hn, hb, hproblem⟩
  · rw [h.filter_isOf, hsettled.filter_isOf hcontext, List.map_flatMap]
    refine List.flatMap_congr ?_
    intro x _
    rw [Document.filter_complaints, if_neg hcompeting, List.append_nil]

/-- A context in which nothing is in scope has been looked at for the first element in it. -/
theorem Outcome.firstIn?_eq (hd : d.WellFormed) (hpre : d.Preordered)
    (h : Outcome o d typeLibrary r last e unit) (hlooks : e.RecordsLooks o d looks)
    {c : ContextId} {n : NodeId} (hn : (c, n) ∈ looks) (hc : e.scopes.get? c = some .dynamic) :
    r.assignments.get? n = some (.context c) ∧ r.firstIn? d c = some n := by
  have hscoped := h.finished.reach.scoped
  obtain ⟨hnode, p, hp, hin, hfirst⟩ := hlooks.first c n hn
  have hsurrounds := hscoped.surrounds_of_inside? hin
  have hassign : e.assignments.get? n = some (.context c) := by
    obtain ⟨a, ha⟩ := Option.isSome_iff_exists.mp ((h.finished.assigned n).mpr hnode)
    obtain ⟨-, ⟨q, hq, hsurrounds'⟩, -⟩ := hscoped.assigned n a ha
    cases hp.symm.trans hq
    cases hscoped.surrounds_unique hd hsurrounds hsurrounds'
    exact ha
  rw [Resolved.firstIn?, h.assignments_eq]
  refine ⟨hassign, ?_⟩
  have hnodes := hpre.bindingNodes_eq hd.toIsTree
  refine find?_eq_some_of_le ?_ (hd.toIsTree.mem_bindingNodes.mpr hnode) (decide_eq_true hassign) ?_
  · rw [hnodes]
    exact List.pairwise_lt_range.filter _
  · -- all elements that are assigned to the context have the same parent
    intro m hm hm'
    have hassign' := of_decide_eq_true hm'
    obtain ⟨-, ⟨q, hq, hsurrounds'⟩, -⟩ := hscoped.assigned m _ hassign'
    cases hscoped.surrounds_injective hd hc hsurrounds hsurrounds'
    exact hfirst m (hd.toIsTree.mem_bindingNodes.mp hm) hq

/-- A context in which nothing is in scope is reported once. -/
theorem Outcome.unscoped (hd : d.WellFormed) (hpre : d.Preordered)
    (h : Outcome o d typeLibrary r last e unit) (hlooks : e.RecordsLooks o d looks) :
    ReportedOnce last.diagnostics .contextUnknown
      (fun c => (∃ n, r.assignments.get? n = some (.context c)) ∧
        o.told e.calls (scopeName c) = some .dynamic)
      fun c => .ofKind .contextUnknown d.file
        ((r.firstIn? d c).bind fun n => (d.bindingNode? n).map (·.location)) [] := by
  have hscope : ∀ c n, (c, n) ∈ looks → o.told e.calls (scopeName c) = e.scopes.get? c :=
    fun c n hn => hlooks.scope c (List.mem_map_of_mem hn)
  have hsome : ∀ x, (d.unknownContext? (o.told e.calls) x).isSome ↔
      o.told e.calls (scopeName x.1) = some .dynamic := by
    intro x
    rw [Document.unknownContext?]
    split <;> simp [*]
  refine ⟨(looks.filter fun x => (d.unknownContext? (o.told e.calls) x).isSome).map (·.1),
    ?_, ?_, ?_⟩
  · exact (List.filter_sublist.map _).nodup hlooks.nodup
  · intro c
    simp only [List.mem_map, List.mem_filter, hsome]
    constructor
    · rintro ⟨⟨c, n⟩, ⟨hn, hc⟩, rfl⟩
      exact ⟨⟨n, (h.firstIn?_eq hd hpre hlooks hn ((hscope c n hn).symm.trans hc)).1⟩, hc⟩
    · rintro ⟨⟨n, hassign⟩, hc⟩
      obtain ⟨x, hx, rfl⟩ := List.mem_map.mp ((hlooks.seen c).mpr (h.seen hassign))
      exact ⟨x, ⟨hx, hc⟩, rfl⟩
  · rw [h.filter_isOf, hlooks.reports, List.map_map]
    refine filterMap_eq_map ?_
    rintro ⟨c, n⟩ hn x hx
    have hc := (hsome (c, n)).mp (Option.isSome_of_eq_some hx)
    have hfirst := (h.firstIn?_eq hd hpre hlooks hn ((hscope c n hn).symm.trans hc)).2
    rw [Document.unknownContext?, if_pos hc] at hx
    cases hx
    rw [Function.comp_apply, hfirst, Option.bind_some]

/-- A resolution whose steps are accounted for keeps to the rules. -/
theorem Outcome.spawnsByRule (hd : d.WellFormed) (hpre : d.Preordered)
    (h : Outcome o d typeLibrary r last e unit) (hrecorded : e.Recorded o d) :
    SpawnsByRule d (o.told last.calls) r last.diagnostics := by
  obtain ⟨looks, hlooks⟩ := hrecorded.looks
  obtain ⟨settled, hsettled⟩ := hrecorded.settled
  rw [h.told_eq]
  refine ⟨?_, ?_, ?_, ?_, fun _ _ hc' => h.existsUnique_handsNew hd hsettled hc',
    h.competing hlooks hsettled, ?_, ?_, h.unscoped hd hpre hlooks⟩
  · intro n c hassign
    have hseen := h.seen hassign
    rw [hlooks.scope c ((hlooks.seen c).mpr hseen)]
    exact hseen
  · intro n c heval
    have hn := (h.evaluatedIn_iff hlooks hsettled).mp heval
    exact ⟨hsettled.type n c hn, hsettled.values n c hn⟩
  · intro n content hcontent
    simp only [h.evaluatedIn_iff hlooks hsettled, List.length_eq_one_iff]
    constructor
    · rintro ⟨c', hnew⟩
      obtain ⟨c, b, hn, hb, -⟩ := h.of_handsNew hsettled hnew
      obtain ⟨hconflicting, hchanging⟩ := (Document.spawned?_eq_some hcontent).mp hb
      exact ⟨c, hn, hconflicting, b, hchanging⟩
    · rintro ⟨c, hn, hconflicting, b, hchanging⟩
      have hb := (Document.spawned?_eq_some hcontent).mpr ⟨hconflicting, hchanging⟩
      obtain ⟨c', hnew, -⟩ := h.exists_handsNew hsettled hn hb
      exact ⟨c', hnew⟩
  · intro n c' hnew
    obtain ⟨c, b, hn, hb, horigin, hparent⟩ := h.of_handsNew hsettled hnew
    have hnode := (h.finished.handed n).mp (Option.isSome_of_eq_some (h.outgoing_eq ▸ hnew.1))
    obtain ⟨content, hcontent⟩ := Option.isSome_iff_exists.mp hnode
    exact ⟨c, b, (h.evaluatedIn_iff hlooks hsettled).mpr hn,
      ((Document.spawned?_eq_some hcontent).mp hb).2, horigin, hparent⟩
  · have hreported := h.reportedOnce_binding hd hlooks hsettled .unknownScope (by decide)
      (by decide)
    exact hreported.congr fun b => and_congr_right' Binding.problem?_eq_unknownScope
  · have hreported := h.reportedOnce_binding hd hlooks hsettled .bindingUnknown (by decide)
      (by decide)
    exact hreported.congr fun b => and_congr_right' Binding.problem?_eq_bindingUnknown

end Engine

/-- **Contexts are opened by the rule, and reports are made once.**  In every resolution that
succeeds, no name is asked for twice.  By what the type checker has told, an element opens a context
just if it is evaluated, has no conflict, and exactly one of its bindings changes the type in scope;
every context that comes from a binding has been opened so by one element.  Before lint directives
are looked at, there is one report for every element with competing bindings, for every binding
with an alias that cannot be determined or else a value of unknown type, and for every context of
elements in which nothing is known to be in scope. -/
theorem resolve_spawns_by_rule [ScriptParser] (o : Oracle U) {file text : String}
    {tokenized : Markup.Tokenized} {handlers : Handlers} {d : Document}
    (hd : (build file text tokenized handlers).document = some d) (typeLibrary : String)
    {r : Resolved} (hr : resolve o d typeLibrary = .ok r) :
    let last := (runResolve o d typeLibrary).2
    (last.calls.flatMap Call.names).Nodup ∧
      SpawnsByRule d (o.told last.calls) r last.diagnostics ∧
      r.diagnostics = last.diagnostics.filter d.timeline.allows := by
  intro last
  have hwf := build_wellFormed hd
  have hpre := preordered_of_build hd
  have hrun : Resolving.Ensures (resolving o d) (.initial d typeLibrary) _ _ :=
    Engine.ensures_recorded hwf hpre
  obtain ⟨e, unit, hrecorded, h⟩ :
      ∃ e unit, e.Recorded o d ∧ Engine.Outcome o d typeLibrary r last e unit := hrun.of_ok hr
  refine ⟨?_, h.spawnsByRule hwf hpre hrecorded, diagnostics_of_resolve hr⟩
  have hnames : last.calls.flatMap Call.names = e.calls.flatMap Call.names := by
    rw [h.calls_eq, List.flatMap_append]
    exact List.append_nil _
  exact hnames ▸ hrecorded.asked.nodup

/-- A view with an element inside another one, an element with two bindings, and one with a loop
whose variable cannot be determined. -/
def rivalView : Markup.Tokenized :=
  let type : TypeReference := ⟨⟨"View", default⟩, true⟩
  let tag (tagType : TagType) (bindings : List Payload) : Token :=
    .element ⟨"p", tagType, default, bindings, false⟩
  ⟨[.directive (.viewmodel default type), tag .start [⟨default, "a:1"⟩],
    tag .empty [⟨default, "a:1"⟩], tag .stop [], tag .empty [⟨default, "a:1,b:1"⟩],
    tag .empty [⟨default, "a:1,foreach:\x7bas:b\x7d"⟩]], .html⟩

/-- A type checker that gives every value a type of its own, but for a scope and a binding. -/
def sketchyOracle : Oracle Nat where
  compile source _ := .ok source.revision
  inspect _ names := .ok (names.map fun name =>
    (name, if name ∈ [scopeName 1, bindingName 4] then .dynamic else .known name []))
  findings _ := .ok []

theorem resolve_spawns_by_rule_rivalView :
    ∃ d r, (build "view.html" "" rivalView ⟨.empty, .empty⟩).document = some d ∧
      resolve sketchyOracle d "lib" = .ok r ∧
      r.contexts.contexts.toList.map (·.origin) = [.root 0, .binding 0] ∧
      r.diagnostics.map (·.code) = ["KO0015", "KO0016", "KO0017", "KO0012"] ∧
      let last := (runResolve sketchyOracle d "lib").2
      (last.calls.flatMap Call.names).Nodup ∧
        SpawnsByRule d (sketchyOracle.told last.calls) r last.diagnostics ∧
        r.diagnostics = last.diagnostics.filter d.timeline.allows := by
  have hresolved : ((build "view.html" "" rivalView ⟨.empty, .empty⟩).document.bind fun d =>
      (resolve sketchyOracle d "lib").toOption.map fun r =>
        (r.contexts.contexts.toList.map (·.origin), r.diagnostics.map (·.code))) =
          some ([.root 0, .binding 0], ["KO0015", "KO0016", "KO0017", "KO0012"]) := by
    decide +kernel
  obtain ⟨d, hd, hresolved⟩ := Option.bind_eq_some_iff.mp hresolved
  obtain ⟨r, hr, hr'⟩ := Option.map_eq_some_iff.mp hresolved
  obtain ⟨horigins, hcodes⟩ := Prod.mk.inj hr'
  have hok : resolve sketchyOracle d "lib" = .ok r := by
    cases hresult : resolve sketchyOracle d "lib" with
    | error failure =>
      rw [hresult] at hr
      cases hr
    | ok r' =>
      rw [hresult] at hr
      cases hr
      rfl
  exact ⟨d, r, hd, hok, horigins, hcodes, resolve_spawns_by_rule sketchyOracle hd "lib" hok⟩

end ViewLint
