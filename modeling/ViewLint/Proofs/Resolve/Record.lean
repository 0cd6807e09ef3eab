import ViewLint.Proofs.Document.Preorder
import ViewLint.Proofs.Resolve.Rounds
import ViewLint.Proofs.Resolve.Values

/-!
# The record of a resolution

A resolution looks once at the scope of every context that elements stand in, and settles once
every element whose scope is known.  The two lists of contexts and elements, in the order in which
this has been done, account for everything that is asked, learned and reported, and for every
context that a binding has opened.

## Main definitions

* `Engine.Still` — nothing is learned or reported between two states.
* `Engine.Asked` — no name has been asked for twice.
* `Engine.RecordsLooks` — the contexts that have been looked at account for what is known of
  contexts.
* `Engine.RecordsSettled` — the elements that have been settled account for what is known of
  bindings.

## Main results

* `Engine.Recorded.probeScopes`, `Engine.Recorded.probeBindings` — asking for scopes and for values
  keeps the record.
* `Engine.Round.recorded`, `Engine.ensures_recorded` — a round and all rounds keep the record.
-/

namespace ViewLint.Engine

variable {U : Type} {o : Oracle U} {d : Document} {typeLibrary : String} {e e' e'' : Engine U}

/-! ### Phases without answers -/

/-- Nothing is learned or reported, no element hands on a context that it did not hand on before,
and no binding opens a context. -/
structure Still (e e' : Engine U) : Prop where
  scopes : e'.scopes = e.scopes
  contextTypes : e'.contextTypes = e.contextTypes
  diagnostics : e'.diagnostics = e.diagnostics
  calls : e'.calls = e.calls
  outgoing : ∀ n c, e'.outgoing.get? n = some (.context c) → e.outgoing.get? n = some (.context c)
  origins : ∀ c b, e'.contexts.origin? c = some (.binding b) →
    e.contexts.origin? c = some (.binding b)

theorem Still.refl (e : Engine U) : e.Still e :=
  ⟨rfl, rfl, rfl, rfl, fun _ _ h => h, fun _ _ h => h⟩

theorem Still.trans (h : e.Still e') (h' : e'.Still e'') : e.Still e'' :=
  ⟨h'.scopes.trans h.scopes, h'.contextTypes.trans h.contextTypes,
    h'.diagnostics.trans h.diagnostics, h'.calls.trans h.calls,
    fun n c hn => h.outgoing n c (h'.outgoing n c hn),
    fun c b hc => h.origins c b (h'.origins c b hc)⟩

/-- Declarations and assignments teach nothing. -/
theorem still_with (e : Engine U) (probe : Probe) (assignments : Table Assignment) :
    e.Still { e with probe, assignments } :=
  ⟨rfl, rfl, rfl, rfl, fun _ _ h => h, fun _ _ h => h⟩

theorem still_setType (e : Engine U) (p : NodeId) (a : Assignment) : e.Still (e.setType p a).2 :=
  ⟨rfl, rfl, rfl, rfl, fun _ _ h => h, fun _ _ h => h⟩

theorem still_openRoot (e : Engine U) (p : NodeId) (type : TypeReference) :
    e.Still (e.openRoot p type).2 := by
  refine ⟨rfl, rfl, rfl, rfl, fun _ _ h => h, ?_⟩
  intro c b hc
  rcases Forest.of_origin?_addRoot hc with ⟨-, horigin⟩ | hold
  · cases horigin
  · exact hold

theorem still_openDirective (e : Engine U) (p : NodeId) (type : TypeReference) (c : ContextId) :
    e.Still (e.openDirective p type c).2 := by
  refine ⟨rfl, rfl, rfl, rfl, fun _ _ h => h, ?_⟩
  intro c b hc
  rcases Forest.of_origin?_addChild hc with ⟨-, horigin⟩ | hold
  · cases horigin
  · exact hold

theorem still_outgoingFrom (d : Document) (fuel : Nat) (p : NodeId) (e : Engine U) :
    e.Still (outgoingFrom d fuel p e).2 := by
  induction fuel generalizing p e with
  | zero => exact .refl e
  | succ fuel ih =>
    rw [outgoingFrom]
    split
    · exact .refl e
    · split
      · exact .refl e
      · split
        · exact .refl e
        · split
          · exact still_setType e p .unknown
          · split
            · exact still_openRoot e p _
            · split
              · exact still_setType e p .unknown
              · next q _ =>
                -- a directive is looked at after the nodes around it
                have hq := ih q e
                generalize outgoingFrom d fuel q e = r at hq ⊢
                obtain ⟨a, e₁⟩ := r
                cases a with
                | none => exact hq
                | some a =>
                  cases a with
                  | unknown => exact hq.trans (still_setType e₁ p .unknown)
                  | context c => exact hq.trans (still_openDirective e₁ p _ c)

theorem still_ready (d : Document) (nodes : List NodeId) (e : Engine U) :
    e.Still (e.ready d nodes).2 := by
  induction nodes generalizing e with
  | nil => exact .refl e
  | cons n nodes ih =>
    rw [ready]
    cases d.parent? n with
    | none => exact ih e
    | some p =>
      have hp := still_outgoingFrom d d.nodes.size p e
      dsimp only [outgoingOf]
      generalize outgoingFrom d d.nodes.size p e = r at hp ⊢
      obtain ⟨a, e₁⟩ := r
      cases a <;> exact hp.trans (ih e₁)

theorem still_declareBindings (d : Document) (n : NodeId) (c : ContextId) (members : List String)
    (e : Engine U) : e.Still (e.declareBindings d n c members) := by
  unfold declareBindings
  induction d.bindingsOf n generalizing e with
  | nil => exact .refl e
  | cons b bs ih =>
    rw [List.foldl_cons]
    cases d.bindings[b]? with
    | none => exact ih e
    | some binding => exact (still_with e _ e.assignments).trans (ih _)

theorem still_evaluate (d : Document) (ready : List (NodeId × Assignment)) (e : Engine U) :
    e.Still (e.evaluate d ready).2 := by
  induction ready generalizing e with
  | nil => exact .refl e
  | cons x ready ih =>
    obtain ⟨n, a⟩ := x
    rw [evaluate]
    dsimp only
    split
    · have hleave : e.Still { e with
          assignments := e.assignments.insert n a
          outgoing := e.outgoing.insert n .unknown } := by
        refine ⟨rfl, rfl, rfl, rfl, ?_, fun _ _ h => h⟩
        intro m c hm
        rcases Table.of_get?_insert hm with ⟨-, hunknown⟩ | hold
        · cases hunknown
        · exact hold
      exact hleave.trans (ih _)
    · have hassign := still_with e e.probe (e.assignments.insert n a)
      exact (hassign.trans (still_declareBindings d n _ _ _)).trans (ih _)

/-! ### Names that have been asked for -/

/-- A name has been asked for with reason: the scope of its context is known, or its element has
handed something on. -/
inductive Accounted (d : Document) (e : Engine U) : String → Prop where
  | scope {c : ContextId} : (e.scopes.get? c).isSome → Accounted d e (scopeName c)
  | type {c : ContextId} : (e.scopes.get? c).isSome → Accounted d e (contextName c)
  | value {n : NodeId} {b : BindingId} : b ∈ d.bindingsOf n → (e.outgoing.get? n).isSome →
    Accounted d e (bindingName b)

/-- No name has been asked for twice, and every one with reason. -/
structure Asked (d : Document) (e : Engine U) : Prop where
  nodup : (e.calls.flatMap Call.names).Nodup
  accounted : ∀ name ∈ e.calls.flatMap Call.names, e.Accounted d name

theorem Accounted.mono {name : String} (h : e.Accounted d name) (hg : e.Grows e') :
    e'.Accounted d name := by
  cases h with
  | scope hc =>
    obtain ⟨s, hs⟩ := Option.isSome_iff_exists.mp hc
    exact .scope (Option.isSome_of_eq_some (hg.scopes _ s hs))
  | type hc =>
    obtain ⟨s, hs⟩ := Option.isSome_iff_exists.mp hc
    exact .type (Option.isSome_of_eq_some (hg.scopes _ s hs))
  | value hb hn =>
    obtain ⟨a, ha⟩ := Option.isSome_iff_exists.mp hn
    exact .value hb (Option.isSome_of_eq_some (hg.outgoing _ a ha))

/-- Nothing about a context has been asked for before its scope is known. -/
theorem not_accounted_context {c : ContextId} (h : e.scopes.get? c = none) {name : String}
    (hname : name = scopeName c ∨ name = contextName c) : ¬e.Accounted d name := by
  rintro (⟨hc⟩ | ⟨hc⟩ | ⟨-, -⟩)
  · rcases hname with hname | hname
    · rw [scopeName_injective hname, h] at hc
      cases hc
    · exact scopeName_ne_contextName _ _ hname
  · rcases hname with hname | hname
    · exact scopeName_ne_contextName _ _ hname.symm
    · rw [contextName_injective hname, h] at hc
      cases hc
  · rcases hname with hname | hname
    · exact scopeName_ne_bindingName _ _ hname.symm
    · exact bindingName_ne_contextName _ _ hname

/-- The value of a binding has not been asked for before its element hands something on. -/
theorem not_accounted_value (hd : d.WellFormed) {n : NodeId} {b : BindingId}
    (hb : b ∈ d.bindingsOf n) (h : e.outgoing.get? n = none) :
    ¬e.Accounted d (bindingName b) := by
  intro haccounted
  generalize hname : bindingName b = name at haccounted
  cases haccounted with
  | scope => exact scopeName_ne_bindingName _ _ hname.symm
  | type => exact bindingName_ne_contextName _ _ hname
  | value hb' hn =>
    rw [← bindingName_injective hname] at hb'
    rw [hd.node_unique hb' hb, h] at hn
    cases hn

theorem Asked.of_calls_eq (h : e.Asked d) (hg : e.Grows e')
    (hcalls : e'.calls.flatMap Call.names = e.calls.flatMap Call.names) : e'.Asked d := by
  refine ⟨hcalls ▸ h.nodup, ?_⟩
  intro name hname
  rw [hcalls] at hname
  exact (h.accounted name hname).mono hg

/-- The names in the requests before a question, and in the question. -/
theorem names_asked (e : Engine U) (source : SourceUnit) (previous : Option U) (unit : U)
    (names : List String) :
    (e.calls ++ [Call.compile source previous] ++ [Call.inspect unit names]).flatMap Call.names =
      e.calls.flatMap Call.names ++ names := by
  simp [Call.names]

/-- A question about names that have not been asked for. -/
theorem Asked.append (h : e.Asked d) (hg : e.Grows e') {names : List String} (hnodup : names.Nodup)
    (hnew : ∀ name ∈ names, ¬e.Accounted d name) (haccounted : ∀ name ∈ names, e'.Accounted d name)
    (hcalls : e'.calls.flatMap Call.names = e.calls.flatMap Call.names ++ names) : e'.Asked d := by
  refine ⟨?_, ?_⟩
  · rw [hcalls, List.nodup_append]
    refine ⟨h.nodup, hnodup, ?_⟩
    rintro name hold _ hname rfl
    exact hnew name hname (h.accounted name hold)
  · intro name hname
    rw [hcalls, List.mem_append] at hname
    exact hname.elim (fun hold => (h.accounted name hold).mono hg) (haccounted name)

/-- The answer to a question counts for names that have not been asked for. -/
theorem Asked.told (h : e.Asked d) {source : SourceUnit} {previous : Option U} {unit : U}
    {names : List String} {shapes : List (String × Shape)}
    (hok : o.inspect unit names = .ok shapes) {name : String} (hname : name ∈ names)
    (hnew : ¬e.Accounted d name) :
    o.told (e.calls ++ [Call.compile source previous] ++ [.inspect unit names]) name =
      some (shapeOf shapes name) := by
  have hbefore : name ∉ (e.calls ++ [Call.compile source previous]).flatMap Call.names := by
    rw [List.flatMap_append, List.flatMap_singleton, Call.names, List.append_nil]
    exact fun hold => hnew (h.accounted name hold)
  rw [Oracle.told_append, o.told_eq_none hbefore, Option.none_or, o.told_inspect hok,
    if_pos hname]

/-! ### The record -/

/-- An element is the first one in the content of a node that stands in a context. -/
def FirstInside (d : Document) (e : Engine U) (c : ContextId) (n : NodeId) : Prop :=
  (d.bindingNode? n).isSome ∧ ∃ p, d.parent? n = some p ∧ e.inside? d p = some (.context c) ∧
    ∀ m : Nat, (d.bindingNode? m).isSome → d.parent? m = some p → n ≤ m

/-- The contexts that have been looked at, each with the first element in it, account for all that
is known of contexts. -/
structure RecordsLooks (o : Oracle U) (d : Document) (e : Engine U)
    (looks : List (ContextId × NodeId)) : Prop where
  nodup : (looks.map (·.1)).Nodup
  seen : ∀ c, c ∈ looks.map (·.1) ↔ (e.scopes.get? c).isSome
  scope : ∀ c ∈ looks.map (·.1), o.told e.calls (scopeName c) = e.scopes.get? c
  type : ∀ c ∈ looks.map (·.1), (e.contextTypes.get? c).isSome ∧
    o.told e.calls (contextName c) = e.contextTypes.get? c
  first : ∀ c n, (c, n) ∈ looks → e.FirstInside d c n
  reports : e.diagnostics.filter (·.isOf .contextUnknown) =
    looks.filterMap (d.unknownContext? (o.told e.calls))

/-- What an element hands to its content, by what is known of its bindings: the context that one of
them has opened, or the context that the element stands in. -/
def HandsOn (d : Document) (k : Knowledge) (e : Engine U) (n : NodeId) (c : ContextId) : Prop :=
  match d.spawned? k n c with
  | some b => ∃ c', c' ≠ c ∧ e.outgoing.get? n = some (.context c') ∧
    e.contexts.origin? c' = some (.binding b.id) ∧ e.contexts.parent? c' = some c
  | none => e.outgoing.get? n = some (.context c)

/-- The elements that have been settled, each with the context that it stands in, account for all
that is known of bindings, and for the contexts that bindings have opened. -/
structure RecordsSettled (o : Oracle U) (d : Document) (e : Engine U)
    (settled : List (NodeId × ContextId)) : Prop where
  nodup : (settled.map (·.1)).Nodup
  mem_iff : ∀ n c, (n, c) ∈ settled ↔ e.assignments.get? n = some (.context c) ∧
    ∃ c', e.outgoing.get? n = some (.context c')
  type : ∀ n c, (n, c) ∈ settled → (o.told e.calls (contextName c)).isSome
  values : ∀ n c, (n, c) ∈ settled → ∀ b ∈ d.bindingsAt n,
    (o.told e.calls (bindingName b.id)).isSome
  handsOn : ∀ n c, (n, c) ∈ settled → e.HandsOn d (o.told e.calls) n c
  opened : ∀ c' b, e.contexts.origin? c' = some (.binding b) → ∃ n c x, (n, c) ∈ settled ∧
    d.spawned? (o.told e.calls) n c = some x ∧ x.id = b ∧ e.outgoing.get? n = some (.context c')
  reports : (e.diagnostics.filter fun x => !x.isOf .contextUnknown) =
    settled.flatMap fun x => d.complaints (o.told e.calls) x.1 x.2

/-- All that has been asked, learned and reported is accounted for. -/
structure Recorded (o : Oracle U) (d : Document) (e : Engine U) : Prop where
  asked : e.Asked d
  looks : ∃ looks, e.RecordsLooks o d looks
  settled : ∃ settled, e.RecordsSettled o d settled

/-! ### What is recorded stays -/

theorem FirstInside.mono {c : ContextId} {n : NodeId} (h : e.FirstInside d c n) (hg : e.Grows e') :
    e'.FirstInside d c n := by
  obtain ⟨hn, p, hp, hin, hfirst⟩ := h
  exact ⟨hn, p, hp, hg.inside? hin, hfirst⟩

theorem HandsOn.mono {k : Knowledge} {n : NodeId} {c : ContextId} (h : e.HandsOn d k n c)
    (hg : e.Grows e') : e'.HandsOn d k n c := by
  unfold HandsOn at h ⊢
  split at h
  · obtain ⟨c', hne, hout, horigin, hparent⟩ := h
    obtain ⟨horigin', hparent'⟩ := hg.contexts c' _ horigin
    exact ⟨c', hne, hg.outgoing _ _ hout, horigin', hparent'.trans hparent⟩
  · exact hg.outgoing _ _ h

/-- What has been told stays when further requests are made. -/
theorem told_of_isSome {calls : List (Call U)} {name : String} (h : (o.told calls name).isSome)
    (more : List (Call U)) : o.told (calls ++ more) name = o.told calls name := by
  obtain ⟨s, hs⟩ := Option.isSome_iff_exists.mp h
  rw [hs]
  exact o.told_append_of_eq_some hs more

/-- The record of contexts does not change when nothing is learned about contexts. -/
theorem RecordsLooks.mono {looks : List (ContextId × NodeId)} (h : e.RecordsLooks o d looks)
    (hg : e.Grows e') (hscopes : e'.scopes = e.scopes)
    (htypes : ∀ c, (e.scopes.get? c).isSome → e'.contextTypes.get? c = e.contextTypes.get? c)
    (hcalls : e.calls <+: e'.calls)
    (hreports : e'.diagnostics.filter (·.isOf .contextUnknown) =
      e.diagnostics.filter (·.isOf .contextUnknown)) : e'.RecordsLooks o d looks := by
  obtain ⟨more, hmore⟩ := hcalls
  have htold : ∀ c ∈ looks.map (·.1),
      o.told e'.calls (scopeName c) = o.told e.calls (scopeName c) := by
    intro c hc
    rw [← hmore]
    refine told_of_isSome ?_ more
    rw [h.scope c hc]
    exact (h.seen c).mp hc
  refine ⟨h.nodup, ?_, ?_, ?_, fun c n hn => (h.first c n hn).mono hg, ?_⟩
  · intro c
    rw [h.seen, hscopes]
  · intro c hc
    rw [htold c hc, hscopes]
    exact h.scope c hc
  · intro c hc
    obtain ⟨hsome, heq⟩ := h.type c hc
    rw [htypes c ((h.seen c).mp hc), ← hmore, told_of_isSome (heq ▸ hsome) more]
    exact ⟨hsome, heq⟩
  · rw [hreports, h.reports]
    refine List.filterMap_congr ?_
    intro x hx
    rw [Document.unknownContext?, Document.unknownContext?, htold x.1 (List.mem_map_of_mem hx)]

/-- What is known of the bindings of a settled element stays when further requests are made. -/
theorem RecordsSettled.told_eq {settled : List (NodeId × ContextId)}
    (h : e.RecordsSettled o d settled) {n : NodeId} {c : ContextId} (hn : (n, c) ∈ settled)
    (more : List (Call U)) :
    o.told e.calls (contextName c) = o.told (e.calls ++ more) (contextName c) ∧
      ∀ b ∈ d.bindingsAt n,
        o.told e.calls (bindingName b.id) = o.told (e.calls ++ more) (bindingName b.id) :=
  ⟨(told_of_isSome (h.type n c hn) more).symm,
    fun b hb => (told_of_isSome (h.values n c hn b hb) more).symm⟩

/-- The record of elements does not change when no element is settled. -/
theorem RecordsSettled.mono {settled : List (NodeId × ContextId)}
    (h : e.RecordsSettled o d settled) (hs : e.Scoped o d) (hg : e.Grows e')
    (hcalls : e.calls <+: e'.calls)
    (hout : ∀ n c, e'.outgoing.get? n = some (.context c) → e.outgoing.get? n = some (.context c))
    (horigins : ∀ c b, e'.contexts.origin? c = some (.binding b) →
      e.contexts.origin? c = some (.binding b))
    (hreports : (e'.diagnostics.filter fun x => !x.isOf .contextUnknown) =
      e.diagnostics.filter fun x => !x.isOf .contextUnknown) : e'.RecordsSettled o d settled := by
  obtain ⟨more, hmore⟩ := hcalls
  have hspawned : ∀ n c, (n, c) ∈ settled →
      d.spawned? (o.told e.calls) n c = d.spawned? (o.told e'.calls) n c := by
    intro n c hn
    rw [← hmore]
    exact Document.spawned?_congr (h.told_eq hn more).1 (h.told_eq hn more).2
  refine ⟨h.nodup, ?_, ?_, ?_, ?_, ?_, ?_⟩
  · intro n c
    rw [h.mem_iff]
    constructor
    · rintro ⟨hassign, c', hc'⟩
      exact ⟨hg.assignments _ _ hassign, c', hg.outgoing _ _ hc'⟩
    · rintro ⟨hassign, c', hc'⟩
      have hold := hout n c' hc'
      obtain ⟨⟨a, ha, -⟩, -⟩ := hs.handed n _ hold
      cases (hg.assignments _ _ ha).symm.trans hassign
      exact ⟨ha, c', hold⟩
  · intro n c hn
    rw [← hmore, ← (h.told_eq hn more).1]
    exact h.type n c hn
  · intro n c hn b hb
    rw [← hmore, ← (h.told_eq hn more).2 b hb]
    exact h.values n c hn b hb
  · intro n c hn
    have hands := (h.handsOn n c hn).mono hg
    rw [HandsOn, hspawned n c hn] at hands
    exact hands
  · intro c' b hc'
    obtain ⟨n, c, x, hn, hx, hid, hout'⟩ := h.opened c' b (horigins c' b hc')
    exact ⟨n, c, x, hn, (hspawned n c hn).symm.trans hx, hid, hg.outgoing _ _ hout'⟩
  · rw [hreports, h.reports]
    refine List.flatMap_congr ?_
    rintro ⟨n, c⟩ hn
    rw [← hmore]
    exact Document.complaints_congr (h.told_eq hn more).1 (h.told_eq hn more).2

/-- A phase without answers keeps the record. -/
theorem Recorded.still (h : e.Recorded o d) (hs : e.Scoped o d) (hg : e.Grows e')
    (hstill : e.Still e') : e'.Recorded o d := by
  have hcalls : e.calls <+: e'.calls := hstill.calls ▸ List.prefix_rfl
  obtain ⟨looks, hlooks⟩ := h.looks
  obtain ⟨settled, hsettled⟩ := h.settled
  refine ⟨h.asked.of_calls_eq hg (by rw [hstill.calls]), ⟨looks, ?_⟩, settled, ?_⟩
  · refine hlooks.mono hg hstill.scopes (fun c _ => ?_) hcalls ?_
    · rw [hstill.contextTypes]
    · rw [hstill.diagnostics]
  · refine hsettled.mono hs hg hcalls hstill.outgoing hstill.origins ?_
    rw [hstill.diagnostics]

/-! ### Asking for scopes -/

theorem RecordsLooks.lt_size {looks : List (ContextId × NodeId)} (h : e.RecordsLooks o d looks)
    (hs : e.Scoped o d) {c : ContextId} (hc : (e.scopes.get? c).isSome) : c < e.contexts.size := by
  obtain ⟨⟨c, n⟩, hx, rfl⟩ := List.mem_map.mp ((h.seen c).mpr hc)
  obtain ⟨-, p, -, hin, -⟩ := h.first c n hx
  exact hs.lt_size_of_surrounds (hs.surrounds_of_inside? hin)

/-- A context is reported under its own kind, if at all. -/
theorem isOf_unknownContext? {k : Knowledge} {found : ContextId × NodeId} {x : Diagnostic}
    (hx : d.unknownContext? k found = some x) : x.isOf .contextUnknown = true := by
  unfold Document.unknownContext? at hx
  split at hx
  · cases hx
    rw [Diagnostic.isOf_ofKind]
    rfl
  · cases hx

theorem filter_unknownContexts (k : Knowledge) (found : List (ContextId × NodeId)) :
    (found.filterMap (d.unknownContext? k)).filter (·.isOf .contextUnknown) =
        found.filterMap (d.unknownContext? k) ∧
      ((found.filterMap (d.unknownContext? k)).filter fun x => !x.isOf .contextUnknown) = [] := by
  have hall : ∀ x ∈ found.filterMap (d.unknownContext? k), x.isOf .contextUnknown = true := by
    intro x hx
    obtain ⟨y, -, hy⟩ := List.mem_filterMap.mp hx
    exact isOf_unknownContext? hy
  refine ⟨List.filter_eq_self.mpr hall, List.filter_eq_nil_iff.mpr ?_⟩
  intro x hx
  rw [hall x hx]
  exact Bool.false_ne_true

/-- The contexts that are new come on top of those that have been looked at. -/
theorem RecordsLooks.append {looks found : List (ContextId × NodeId)}
    {shapes : List (String × Shape)} {scopes types : Table Shape} (h : e.RecordsLooks o d looks)
    (hnodup : (found.map (·.1)).Nodup) (hnew : ∀ c ∈ found.map (·.1), e.scopes.get? c = none)
    (hfirst : ∀ c n, (c, n) ∈ found → e.FirstInside d c n)
    (htold : ∀ c ∈ found.map (·.1),
      o.told e.calls (scopeName c) = some (shapeOf shapes (scopeName c)) ∧
        o.told e.calls (contextName c) = some (shapeOf shapes (contextName c)))
    (hscopes : ∀ c : ContextId, scopes.get? c =
      if c ∈ found.map (·.1) then some (shapeOf shapes (scopeName c)) else e.scopes.get? c)
    (htypes : ∀ c : ContextId, types.get? c =
      if c ∈ found.map (·.1) then some (shapeOf shapes (contextName c))
      else e.contextTypes.get? c)
    (hg : e.Grows { e with
      scopes
      contextTypes := types
      diagnostics := e.diagnostics ++ found.filterMap (d.unknownContext? (o.told e.calls)) }) :
    RecordsLooks o d
      { e with
        scopes
        contextTypes := types
        diagnostics := e.diagnostics ++ found.filterMap (d.unknownContext? (o.told e.calls)) }
      (looks ++ found) := by
  have hold : ∀ c ∈ looks.map (·.1), c ∉ found.map (·.1) := by
    intro c hc hf
    have hseen := (h.seen c).mp hc
    rw [hnew c hf] at hseen
    cases hseen
  refine ⟨?_, ?_, ?_, ?_, ?_, ?_⟩
  · rw [List.map_append, List.nodup_append]
    refine ⟨h.nodup, hnodup, ?_⟩
    rintro c hc _ hf rfl
    exact hold c hc hf
  · intro c
    dsimp only
    rw [List.map_append, List.mem_append, h.seen, hscopes]
    by_cases hf : c ∈ found.map (·.1)
    · rw [if_pos hf]
      exact iff_of_true (.inr hf) rfl
    · rw [if_neg hf]
      exact or_iff_left hf
  · intro c hc
    rw [List.map_append, List.mem_append] at hc
    dsimp only
    rw [hscopes]
    by_cases hf : c ∈ found.map (·.1)
    · rw [if_pos hf]
      exact (htold c hf).1
    · rw [if_neg hf]
      exact h.scope c (hc.resolve_right hf)
  · intro c hc
    rw [List.map_append, List.mem_append] at hc
    dsimp only
    rw [htypes]
    by_cases hf : c ∈ found.map (·.1)
    · rw [if_pos hf]
      exact ⟨rfl, (htold c hf).2⟩
    · rw [if_neg hf]
      exact h.type c (hc.resolve_right hf)
  · intro c n hn
    rcases List.mem_append.mp hn with hn | hn
    · exact (h.first c n hn).mono hg
    · exact (hfirst c n hn).mono hg
  · dsimp only
    rw [List.filter_append, h.reports, (filter_unknownContexts _ found).1, List.filterMap_append]

/-- A revision and a question about it keep the record, before the answer is used. -/
theorem records_inspected {looks : List (ContextId × NodeId)}
    {settled : List (NodeId × ContextId)} (hlooks : e.RecordsLooks o d looks)
    (hsettled : e.RecordsSettled o d settled) (hs : e.Scoped o d) (probe : Probe)
    (unit : U) (names : List String) :
    let e' := ({ e with probe }.compiled unit).asked (.inspect unit names)
    e'.RecordsLooks o d looks ∧ e'.RecordsSettled o d settled := by
  intro e'
  have hg : e.Grows e' :=
    ((grows_of_keeps (.refl _) probe _).trans (grows_compiled _ unit)).trans (grows_asked _ _)
  have hcalls : e.calls <+: e'.calls :=
    (List.prefix_append _ _).trans (List.prefix_append _ _)
  exact ⟨hlooks.mono hg rfl (fun _ _ => rfl) hcalls rfl,
    hsettled.mono hs hg hcalls (fun _ _ hn => hn) (fun _ _ hc => hc) rfl⟩

/-- Asking for scopes keeps the record. -/
theorem Recorded.probeScopes {ready : List (NodeId × Assignment)} (h : e.Recorded o d)
    (hs : e.Scoped o d) (hfirst : ∀ c n, (c, n) ∈ e.unseen ready → e.FirstInside d c n)
    (hg : e.Grows e') (hprobed : ProbesScopes o d ready e e') : e'.Recorded o d := by
  cases hprobed with
  | nothing => exact h
  | @asked probe unit names shapes hnames hok =>
    obtain ⟨looks, hlooks⟩ := h.looks
    obtain ⟨settled, hsettled⟩ := h.settled
    have hcovers := covers_unseen e ready
    generalize e.unseen ready = found at *
    have hnone : ∀ c ∈ found.map (·.1), e.scopes.get? c = none := by
      intro c hc
      obtain ⟨⟨c, n⟩, hx, rfl⟩ := List.mem_map.mp hc
      exact (hcovers.sound c n hx).2
    have hnew : ∀ name ∈ names, ¬e.Accounted d name := by
      intro name hname
      rw [hnames] at hname
      obtain ⟨c, hc, hname⟩ := mem_scopeNames.mp hname
      exact not_accounted_context (hnone c hc) hname
    have hlooks₁ := (records_inspected hlooks hsettled hs probe unit names).1
    have hcalls : (({ e with probe }.compiled unit).asked (.inspect unit names)).calls =
        e.calls ++ [.compile probe.commit.1 e.unit] ++ [.inspect unit names] := rfl
    have htold : ∀ c ∈ found.map (·.1),
        o.told (({ e with probe }.compiled unit).asked (.inspect unit names)).calls (scopeName c) =
            some (shapeOf shapes (scopeName c)) ∧
          o.told (({ e with probe }.compiled unit).asked (.inspect unit names)).calls
            (contextName c) = some (shapeOf shapes (contextName c)) := by
      intro c hc
      have hscope : scopeName c ∈ names := hnames ▸ mem_scopeNames.mpr ⟨c, hc, .inl rfl⟩
      have htype : contextName c ∈ names := hnames ▸ mem_scopeNames.mpr ⟨c, hc, .inr rfl⟩
      rw [hcalls]
      exact ⟨h.asked.told hok hscope (hnew _ hscope), h.asked.told hok htype (hnew _ htype)⟩
    obtain ⟨scopes, types, hfold, hscopes, htypes⟩ := foldl_learnScope (d := d) shapes found
      (({ e with probe }.compiled unit).asked (.inspect unit names)) fun c hc => (htold c hc).1
    rw [hfold] at hg ⊢
    refine ⟨?_, ⟨looks ++ found, ?_⟩, settled, ?_⟩
    · refine h.asked.append hg (hnames ▸ nodup_scopeNames hcovers.nodup) hnew ?_
        (names_asked e _ _ unit names)
      intro name hname
      rw [hnames] at hname
      obtain ⟨c, hc, hname⟩ := mem_scopeNames.mp hname
      have hseen : (scopes.get? c).isSome := by rw [hscopes, if_pos hc, Option.isSome_some]
      rcases hname with rfl | rfl
      · exact .scope hseen
      · exact .type hseen
    · refine hlooks₁.append hcovers.nodup hnone ?_ htold hscopes htypes
        ⟨.refl _, .refl _, .refl _, hg.scopes, .refl _⟩
      intro c n hn
      exact (hfirst c n hn).mono ⟨.refl _, .refl _, .refl _, .refl _, .refl _⟩
    · refine hsettled.mono hs hg ((List.prefix_append _ _).trans (List.prefix_append _ _))
        (fun _ _ hn => hn) (fun _ _ hc => hc) ?_
      dsimp only
      rw [List.filter_append, (filter_unknownContexts _ found).2, List.append_nil]
      rfl

/-! ### Settling elements -/

/-- What is reported on an element is not about contexts. -/
theorem filter_complaints (k : Knowledge) (n : NodeId) (c : ContextId) :
    (d.complaints k n c).filter (·.isOf .contextUnknown) = [] ∧
      ((d.complaints k n c).filter fun x => !x.isOf .contextUnknown) = d.complaints k n c := by
  have hnil : (d.complaints k n c).filter (·.isOf .contextUnknown) = [] := by
    rw [d.filter_complaints, d.filter_problem?_eq_nil k n .contextUnknown nofun nofun,
      if_neg nofun]
    rfl
  refine ⟨hnil, List.filter_eq_self.mpr ?_⟩
  intro x hx
  rw [Bool.eq_false_of_not_eq_true (List.filter_eq_nil_iff.mp hnil x hx)]
  rfl

/-- The state after an element has been settled. -/
def settleOne (e : Engine U) (d : Document) (shapes : List (String × Shape)) (n : NodeId)
    (c : ContextId) : Engine U :=
  let (a, e) := e.childContext d shapes n c
  { e with outgoing := e.outgoing.insert n a }

theorem settle_cons (e : Engine U) (d : Document) (shapes : List (String × Shape)) (n : NodeId)
    (c : ContextId) (nodes : List (NodeId × ContextId)) :
    e.settle d shapes ((n, c) :: nodes) = (e.settleOne d shapes n c).settle d shapes nodes := rfl

/-- An element that waits for the values of its bindings. -/
structure Waiting (d : Document) (e : Engine U) (n : NodeId) (c : ContextId) : Prop where
  element : (d.bindingNode? n).isSome
  assignment : e.assignments.get? n = some (.context c)
  seen : (e.scopes.get? c).isSome
  outgoing : e.outgoing.get? n = none

/-- An element is settled: it hands something on, perhaps a context that has been opened for it, and
the other elements and all that is known stay as they are. -/
structure SettlesOne (e e' : Engine U) (n : NodeId) : Prop where
  grows : e.Grows e'
  calls : e'.calls = e.calls
  assignments : e'.assignments = e.assignments
  scopes : e'.scopes = e.scopes
  outgoing : ∀ m, m ≠ n → e'.outgoing.get? m = e.outgoing.get? m
  size : e.contexts.size ≤ e'.contexts.size

/-- An element that is settled comes on top of those before. -/
theorem RecordsSettled.append {settled : List (NodeId × ContextId)} {n : NodeId} {c c₁ : ContextId}
    (h : e.RecordsSettled o d settled) (hw : e.Waiting d n c) (hone : e.SettlesOne e' n)
    (hout : e'.outgoing.get? n = some (.context c₁)) (hands : e'.HandsOn d (o.told e.calls) n c)
    (horigins : ∀ c' b, e'.contexts.origin? c' = some (.binding b) →
      (∃ x, d.spawned? (o.told e.calls) n c = some x ∧ x.id = b ∧ c₁ = c') ∨
        e.contexts.origin? c' = some (.binding b))
    (htype : (o.told e.calls (contextName c)).isSome)
    (hvalues : ∀ b ∈ d.bindingsAt n, (o.told e.calls (bindingName b.id)).isSome)
    (hreports : e'.diagnostics = e.diagnostics ++ d.complaints (o.told e.calls) n c) :
    e'.RecordsSettled o d (settled ++ [(n, c)]) := by
  have hnot : n ∉ settled.map (·.1) := by
    intro hn
    obtain ⟨⟨n, c'⟩, hx, rfl⟩ := List.mem_map.mp hn
    obtain ⟨-, c'', hc''⟩ := (h.mem_iff n c').mp hx
    cases hw.outgoing.symm.trans hc''
  refine ⟨?_, ?_, ?_, ?_, ?_, ?_, ?_⟩
  · rw [List.map_append, List.map_singleton, ← List.concat_eq_append]
    exact h.nodup.concat hnot
  · intro m c'
    rw [List.mem_append, List.mem_singleton, h.mem_iff, hone.assignments]
    by_cases hm : m = n
    · subst hm
      rw [hw.outgoing, hw.assignment, hout]
      simp [eq_comm]
    · rw [hone.outgoing m hm]
      simp [hm]
  all_goals rw [hone.calls]
  · intro m c' hm
    rcases List.mem_append.mp hm with hm | hm
    · exact h.type m c' hm
    · cases List.mem_singleton.mp hm
      exact htype
  · intro m c' hm
    rcases List.mem_append.mp hm with hm | hm
    · exact h.values m c' hm
    · cases List.mem_singleton.mp hm
      exact hvalues
  · intro m c' hm
    rcases List.mem_append.mp hm with hm | hm
    · exact (h.handsOn m c' hm).mono hone.grows
    · cases List.mem_singleton.mp hm
      exact hands
  · intro c' b hc'
    rcases horigins c' b hc' with ⟨x, hx, hid, rfl⟩ | hold
    · exact ⟨n, c, x, List.mem_append_right _ (List.mem_singleton_self _), hx, hid, hout⟩
    · obtain ⟨m, c'', x, hm, hx, hid, hm'⟩ := h.opened c' b hold
      exact ⟨m, c'', x, List.mem_append_left _ hm, hx, hid, hone.grows.outgoing _ _ hm'⟩
  · rw [hreports, List.filter_append, h.reports, (filter_complaints _ n c).2, List.flatMap_append,
      List.flatMap_singleton]

/-- Settling an element keeps the record. -/
theorem Recorded.settleOne {looks : List (ContextId × NodeId)}
    {settled : List (NodeId × ContextId)} {shapes : List (String × Shape)} {n : NodeId}
    {c : ContextId} (hlooks : e.RecordsLooks o d looks) (hsettled : e.RecordsSettled o d settled)
    (hsize : ∀ c, (e.scopes.get? c).isSome → c < e.contexts.size) (hw : e.Waiting d n c)
    (hbs : ∀ b ∈ d.bindingsAt n,
      o.told e.calls (bindingName b.id) = some (shapeOf shapes (bindingName b.id))) :
    e.SettlesOne (e.settleOne d shapes n c) n ∧
      (e.settleOne d shapes n c).RecordsLooks o d looks ∧
      (e.settleOne d shapes n c).RecordsSettled o d (settled ++ [(n, c)]) := by
  obtain ⟨hsome, htype⟩ := hlooks.type c ((hlooks.seen c).mpr hw.seen)
  have hparent : (e.contextTypes.get? c).bind (·.typeId?) =
      Knowledge.type? (o.told e.calls) (contextName c) := by
    rw [Knowledge.type?, htype]
  have hvalues : ∀ b ∈ d.bindingsAt n, (o.told e.calls (bindingName b.id)).isSome := by
    intro b hb
    rw [hbs b hb, Option.isSome_some]
  have hreports : ((e.diagnostics ++ d.complaints (o.told e.calls) n c).filter
      (·.isOf .contextUnknown)) = e.diagnostics.filter (·.isOf .contextUnknown) := by
    rw [List.filter_append, (filter_complaints _ n c).1, List.append_nil]
  rw [Engine.settleOne, childContext_eq hw.element hparent hbs]
  cases hspawned : d.spawned? (o.told e.calls) n c with
  | none =>
    have hone : e.SettlesOne { e.noted (d.complaints (o.told e.calls) n c) with
        outgoing := e.outgoing.insert n (.context c) } n :=
      ⟨⟨.refl _, .refl _, Table.keeps_insert _ hw.outgoing, .refl _, .refl _⟩, rfl, rfl, rfl,
        fun m hm => Table.get?_insert_of_ne hm _, Nat.le_refl _⟩
    refine ⟨hone, hlooks.mono hone.grows rfl (fun _ _ => rfl) List.prefix_rfl hreports, ?_⟩
    refine hsettled.append hw hone (Table.get?_insert_self _ _ _) ?_ (fun _ _ hc => .inr hc)
      (htype ▸ hsome) hvalues rfl
    rw [HandsOn, hspawned]
    exact Table.get?_insert_self _ _ _
  | some b =>
    have hlt := hsize c hw.seen
    have hkeeps := Forest.keeps_addChild e.contexts c (.binding b.id) none
    have hone : e.SettlesOne
        { ((e.noted (d.complaints (o.told e.calls) n c)).openBinding c b
            (shapeOf shapes (bindingName b.id))).2 with
          outgoing := e.outgoing.insert n (.context e.contexts.size) } n := by
      refine ⟨⟨.refl _, .refl _, Table.keeps_insert _ hw.outgoing, .refl _, hkeeps⟩, rfl, rfl, rfl,
        fun m hm => Table.get?_insert_of_ne hm _, ?_⟩
      dsimp only [openBinding, declare, noted]
      rw [Forest.size_addChild]
      exact Nat.le_succ _
    refine ⟨hone, hlooks.mono hone.grows rfl ?_ List.prefix_rfl hreports, ?_⟩
    · -- the type of the new context is kept under a number of its own
      intro c' hc'
      exact Table.get?_insert_of_ne (Nat.ne_of_lt (hsize c' hc')) _
    · refine hsettled.append hw hone (Table.get?_insert_self _ _ _) ?_ ?_ (htype ▸ hsome) hvalues
        rfl
      · rw [HandsOn, hspawned]
        refine ⟨e.contexts.size, Nat.ne_of_gt hlt, Table.get?_insert_self _ _ _, ?_, ?_⟩
        · exact (Forest.origin?_addChild ..).trans (if_pos rfl)
        · exact (Forest.parent?_addChild ..).trans (if_pos rfl)
      · intro c' x hc'
        rcases Forest.of_origin?_addChild hc' with ⟨rfl, horigin⟩ | hold
        · cases horigin
          exact .inl ⟨b, hspawned, rfl, rfl⟩
        · exact .inr hold

/-- Settling elements one after the other keeps the record. -/
theorem Recorded.settle {looks : List (ContextId × NodeId)} {settled : List (NodeId × ContextId)}
    {shapes : List (String × Shape)} {nodes : List (NodeId × ContextId)}
    (hlooks : e.RecordsLooks o d looks) (hsettled : e.RecordsSettled o d settled)
    (hsize : ∀ c, (e.scopes.get? c).isSome → c < e.contexts.size)
    (hnodup : (nodes.map (·.1)).Nodup) (hwait : ∀ n c, (n, c) ∈ nodes → e.Waiting d n c)
    (hbs : ∀ n c, (n, c) ∈ nodes → ∀ b ∈ d.bindingsAt n,
      o.told e.calls (bindingName b.id) = some (shapeOf shapes (bindingName b.id))) :
    (e.settle d shapes nodes).calls = e.calls ∧
      (∃ looks, (e.settle d shapes nodes).RecordsLooks o d looks) ∧
      ∃ settled, (e.settle d shapes nodes).RecordsSettled o d settled := by
  induction nodes generalizing e settled with
  | nil => exact ⟨rfl, ⟨looks, hlooks⟩, settled, hsettled⟩
  | cons x nodes ih =>
    obtain ⟨n, c⟩ := x
    rw [List.map_cons, List.nodup_cons] at hnodup
    obtain ⟨hone, hlooks', hsettled'⟩ := Recorded.settleOne hlooks hsettled hsize
      (hwait n c (List.mem_cons_self ..)) (hbs n c (List.mem_cons_self ..))
    rw [settle_cons, ← hone.calls]
    refine ih hlooks' hsettled' ?_ hnodup.2 ?_ ?_
    · intro c' hc'
      rw [hone.scopes] at hc'
      exact Nat.lt_of_lt_of_le (hsize c' hc') hone.size
    · -- the other elements still wait
      intro m c' hm
      have hold := hwait m c' (List.mem_cons_of_mem _ hm)
      have hne : m ≠ n := by
        rintro rfl
        exact hnodup.1 (List.mem_map.mpr ⟨_, hm, rfl⟩)
      exact ⟨hold.element, hone.assignments ▸ hold.assignment, hone.scopes ▸ hold.seen,
        (hone.outgoing m hne).trans hold.outgoing⟩
    · intro m c' hm b hb
      rw [hone.calls]
      exact hbs m c' (List.mem_cons_of_mem _ hm) b hb

/-- Asking for the values of bindings keeps the record. -/
theorem Recorded.probeBindings (hd : d.WellFormed) {nodes : List (NodeId × ContextId)}
    (h : e.Recorded o d) (hs : e.Scoped o d) (hnodup : (nodes.map (·.1)).Nodup)
    (hopen : ∀ n c, (n, c) ∈ nodes → e.Open d n c) (hg : e.Grows e')
    (hout : ∀ n, n ∈ nodes.map (·.1) → (e'.outgoing.get? n).isSome)
    (hprobed : ProbesBindings o d nodes e e') : e'.Recorded o d := by
  cases hprobed with
  | nothing => exact h
  | @asked unit names shapes hnames hok =>
    obtain ⟨looks, hlooks⟩ := h.looks
    obtain ⟨settled, hsettled⟩ := h.settled
    have hmem : ∀ n c, (n, c) ∈ nodes → ∀ b ∈ d.bindingsOf n, bindingName b ∈ names := by
      intro n c hn b hb
      rw [hnames]
      exact List.mem_flatMap.mpr ⟨(n, c), hn, List.mem_map_of_mem hb⟩
    have hnew : ∀ n c, (n, c) ∈ nodes → ∀ b ∈ d.bindingsOf n, ¬e.Accounted d (bindingName b) :=
      fun n c hn b hb => not_accounted_value hd hb (hopen n c hn).outgoing
    have hlt : ∀ c, (e.scopes.get? c).isSome → c < e.contexts.size :=
      fun c hc => hlooks.lt_size hs hc
    have hwait : ∀ n c, (n, c) ∈ nodes → e.Waiting d n c := by
      intro n c hn
      have hassigned := hs.assigned n _ (hopen n c hn).assignment
      exact ⟨hassigned.1, (hopen n c hn).assignment, hassigned.2.2 c rfl, (hopen n c hn).outgoing⟩
    obtain ⟨hlooks₁, hsettled₁⟩ := records_inspected hlooks hsettled hs e.probe unit names
    obtain ⟨hcalls, hlooks₂, hsettled₂⟩ := Recorded.settle hlooks₁ hsettled₁ hlt hnodup
      (fun n c hn => ⟨(hwait n c hn).element, (hwait n c hn).assignment, (hwait n c hn).seen,
        (hwait n c hn).outgoing⟩)
      (fun n c hn b hb => by
        have hb' := ((Document.mem_bindingsAt hd).mp hb).1
        exact h.asked.told hok (hmem n c hn b.id hb') (hnew n c hn b.id hb'))
    refine ⟨?_, hlooks₂, hsettled₂⟩
    refine h.asked.append hg (hnames ▸ nodup_bindingNames hd hnodup) ?_ ?_
      ((congrArg (List.flatMap Call.names) hcalls).trans (names_asked e _ _ unit names))
    · intro name hname
      rw [hnames] at hname
      obtain ⟨⟨n, c⟩, hn, hname⟩ := List.mem_flatMap.mp hname
      obtain ⟨b, hb, rfl⟩ := List.mem_map.mp hname
      exact hnew n c hn b hb
    · intro name hname
      rw [hnames] at hname
      obtain ⟨⟨n, c⟩, hn, hname⟩ := List.mem_flatMap.mp hname
      obtain ⟨b, hb, rfl⟩ := List.mem_map.mp hname
      exact .value hb (hout n (List.mem_map_of_mem hn))

/-! ### Rounds -/

/-- A context is looked at for the first of the ready elements in it. -/
theorem le_of_mem_unseen {ready : List (NodeId × Assignment)}
    (hready : (ready.map (·.1)).Pairwise (· < ·)) {c : ContextId} {n m : Nat}
    (hn : (c, n) ∈ e.unseen ready) (hm : (m, .context c) ∈ ready) : n ≤ m := by
  induction ready using List.reverseRecOn with
  | nil => cases hm
  | append_singleton ready x ih =>
    obtain ⟨l, a⟩ := x
    rw [List.map_append, List.pairwise_append] at hready
    have hcovers := covers_unseen e ready
    have hlast : ∀ k, (c, k) ∈ e.unseen ready → k < l := by
      intro k hk
      have hmem := List.mem_map_of_mem (f := (·.1)) (hcovers.sound c k hk).1
      exact hready.2.2 k hmem l (List.mem_singleton_self _)
    -- an element that is found is found before the last one, or it is the last one
    have hfound : (c, n) ∈ e.unseen ready ∨
        n = l ∧ a = .context c ∧ c ∉ (e.unseen ready).map (·.1) ∧ e.scopes.get? c = none := by
      rw [unseen_append] at hn
      split at hn
      · exact .inl hn
      · split at hn
        · exact .inl hn
        · next hnot =>
          rcases List.mem_append.mp hn with hn | hn
          · exact .inl hn
          · cases List.mem_singleton.mp hn
            rw [Bool.or_eq_true, any_fst_iff, not_or, Option.not_isSome_iff_eq_none] at hnot
            exact .inr ⟨rfl, rfl, hnot.2, hnot.1⟩
    rcases List.mem_append.mp hm with hm | hm
    · rcases hfound with hfound | ⟨-, -, hnot, hscope⟩
      · exact ih hready.1 hfound hm
      · rcases hcovers.complete m c hm with hseen | hc
        · rw [hscope] at hseen
          cases hseen
        · exact absurd hc hnot
    · cases List.mem_singleton.mp hm
      rcases hfound with hfound | ⟨rfl, -⟩
      · exact Nat.le_of_lt (hlast n hfound)
      · exact Nat.le_refl _

/-- The elements that are left are in document order. -/
theorem pairwise_ready (hd : d.IsTree) (hpre : d.Preordered) {i : Nat}
    {ready : List (NodeId × Assignment)}
    (hnext : ready.map (·.1) = (d.frontierAt i).filter (d.level · ≤ i + 1)) :
    (ready.map (·.1)).Pairwise (· < ·) := by
  rw [hnext, Document.frontierAt, hpre.bindingNodes_eq hd]
  exact ((List.pairwise_lt_range.filter _).filter _).filter _

section Round

variable {i : Nat} {ready : List (NodeId × Assignment)} {nodes : List (NodeId × ContextId)}
  {e₁ e₂ e₃ e₄ : Engine U}

/-- In a round, a context is looked at for the first element in the content of its node: the other
elements there are ready as well. -/
theorem Round.firstInside (hd : d.WellFormed) (hpre : d.Preordered)
    (h : Round o d typeLibrary i ready nodes e e₁ e₂ e₃ e₄) {c : ContextId} {n : NodeId}
    (hn : (c, n) ∈ e₁.unseen ready) : e₁.FirstInside d c n := by
  have hready := ((covers_unseen e₁ ready).sound c n hn).1
  obtain ⟨hnode, hlevel⟩ := (mem_ready_iff hd.toIsTree h.next).mp (List.mem_map_of_mem hready)
  obtain ⟨p, hp, hin⟩ := h.finds.inside n _ hready
  refine ⟨hnode, p, hp, hin, ?_⟩
  intro m hm hmp
  have hsame : d.level m = d.level n := by
    rw [hd.toIsTree.level_element hm hmp, hd.toIsTree.level_element hnode hp]
  have hmem : m ∈ ready.map (·.1) := by
    rw [mem_ready_iff hd.toIsTree h.next, hsame]
    exact ⟨hm, hlevel⟩
  obtain ⟨⟨m, a⟩, hma, rfl⟩ := List.mem_map.mp hmem
  obtain ⟨q, hq, hin'⟩ := h.finds.inside m a hma
  cases hmp.symm.trans hq
  cases hin.symm.trans hin'
  exact le_of_mem_unseen (pairwise_ready hd.toIsTree hpre h.next) hn hma

/-- A round keeps the record. -/
theorem Round.recorded (hd : d.WellFormed) (hpre : d.Preordered)
    (h : Round o d typeLibrary i ready nodes e e₁ e₂ e₃ e₄) (hat : AtRound o d typeLibrary i e)
    (hrecorded : e.Recorded o d) : e₄.Recorded o d := by
  have hbegun : e.Still (e.begun (d.frontierAt i)) :=
    ⟨rfl, rfl, rfl, rfl, fun _ _ hn => hn, fun _ _ hc => hc⟩
  have hgrows : e.Grows (e.begun (d.frontierAt i)) := ⟨.refl _, .refl _, .refl _, .refl _, .refl _⟩
  have hready := still_ready d (d.frontierAt i) (e.begun (d.frontierAt i))
  rw [h.ready_eq] at hready
  have hrecorded₁ : e₁.Recorded o d := hrecorded.still hat.reach.scoped
    (hgrows.trans h.finds.updates.grows) (hbegun.trans hready)
  have hscoped₁ : e₁.Scoped o d := h.finds.updates.scoped (hat.reach.begin _).scoped
  have hrecorded₂ : e₂.Recorded o d := hrecorded₁.probeScopes hscoped₁
    (fun c n hn => h.firstInside hd hpre hn) h.scopes.grows h.scopes_probed
  have hevaluate := still_evaluate d ready e₂
  rw [h.evaluate_eq] at hevaluate
  have hrecorded₃ : e₃.Recorded o d := hrecorded₂.still h.scopes.reach.scoped
    h.evaluates.updates.grows hevaluate
  have hscoped₃ : e₃.Scoped o d := h.evaluates.updates.scoped h.scopes.reach.scoped
  exact hrecorded₃.probeBindings hd hscoped₃
    (h.evaluates.sublist.nodup (nodup_ready hd.toIsTree h.next)) h.opened h.values.grows
    (fun n hn => (h.values_outgoing n).mpr (.inr hn)) h.values_probed

end Round

/-- At first there is nothing to be recorded. -/
theorem recorded_initial (hd : d.IsTree) (typeLibrary : String) :
    (initial d typeLibrary : Engine U).Recorded o d := by
  have hblank : (blank d typeLibrary : Engine U).Recorded o d := by
    refine ⟨⟨List.nodup_nil, ?_⟩, ⟨[], List.nodup_nil, ?_, ?_, ?_, ?_, rfl⟩,
      [], List.nodup_nil, ?_, ?_, ?_, ?_, ?_, rfl⟩
    · intro name hname
      cases hname
    · intro c
      exact iff_of_false List.not_mem_nil Bool.false_ne_true
    · intro c hc
      cases hc
    · intro c hc
      cases hc
    · intro c n hn
      cases hn
    · intro n c
      refine iff_of_false List.not_mem_nil ?_
      rintro ⟨hn, -⟩
      cases hn
    · intro n c hn
      cases hn
    · intro n c hn
      cases hn
    · intro n c hn
      cases hn
    · intro c b hc
      cases hc
  have hstill : (blank d typeLibrary : Engine U).Still (initial d typeLibrary) := by
    unfold initial
    cases d.viewmodel? with
    | none => exact still_setType _ _ _
    | some type => exact still_openRoot _ _ _
  exact hblank.still Reach.blank.scoped (update_initial (o := o) hd typeLibrary).grows hstill

/-- All rounds of a resolution keep the record. -/
theorem ensures_recorded (hd : d.WellFormed) (hpre : d.Preordered) :
    Resolving.Ensures (resolving o d) (initial d typeLibrary)
      (fun r e' => ∃ e unit, e.Recorded o d ∧ Outcome o d typeLibrary r e' e unit)
      (Failed o d typeLibrary) := by
  refine (ensures_resolving_of hd
    (I := fun i e => AtRound o d typeLibrary i e ∧ e.Recorded o d) ?_
    ⟨atRound_initial hd, recorded_initial hd.toIsTree typeLibrary⟩ fun _ h => h.1).mono ?_
    fun _ _ hf => hf
  · rintro i e ⟨hat, hrecorded⟩ hne
    refine (hat.ensures_phases hd hne).mono ?_ fun _ _ hf => hf
    rintro rest e' ⟨hrest, ready, nodes, e₁, e₂, e₃, hround⟩
    exact ⟨hrest, hround.atRound hd hat, hround.recorded hd hpre hat hrecorded⟩
  · rintro r e' ⟨e, e₁, unit, ⟨hat, hrecorded⟩, rfl | ⟨unit', rfl⟩, houtcome⟩
    · exact ⟨e₁, unit, hrecorded, houtcome⟩
    · refine ⟨_, unit, ?_, houtcome⟩
      obtain ⟨looks, hlooks⟩ := hrecorded.looks
      obtain ⟨settled, hsettled⟩ := hrecorded.settled
      have hg := grows_compiled e unit'
      have hcalls : e.calls <+: (e.compiled unit').calls := List.prefix_append _ _
      refine ⟨hrecorded.asked.of_calls_eq hg ?_,
        ⟨looks, hlooks.mono hg rfl (fun _ _ => rfl) hcalls rfl⟩,
        settled, hsettled.mono hat.reach.scoped hg hcalls (fun _ _ hn => hn) (fun _ _ hc => hc) rfl⟩
      exact List.flatMap_append.trans (List.append_nil _)

end ViewLint.Engine
