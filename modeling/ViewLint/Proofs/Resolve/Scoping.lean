import ViewLint.Proofs.Document.Walk
import ViewLint.Proofs.Resolve.Update

/-!
# Which context surrounds what

The context of an element is determined by the tree: elements hand a context to their content,
view models open one, and directives open one inside the context around them.  At every moment
of a resolution, all that is fixed agrees with these rules.

## Main definitions

* `Surrounds` — the context that the content of a node stands in, by the rules.
* `Hands` — what an element makes of its own context.
* `Engine.Scoped` — all that is fixed agrees with the rules.

## Main results

* `Engine.Reach.scoped` — every state of a resolution agrees with the rules.
* `Engine.Scoped.surrounds_unique` — the rules leave no choice.
* `Engine.Scoped.origin_injective` — no two contexts have the same origin.
-/

namespace ViewLint

variable {U : Type}

/-- The context that the content of a node stands in.  An element hands it on; a view model has
a root context of its own, or none if the document has no view model; a directive has a context
inside the one around it, and none where that one is unknown. -/
inductive Surrounds (d : Document) (contexts : Forest) (outgoing : Table Assignment) :
    NodeId → Assignment → Prop where
  | element {p : NodeId} {a : Assignment} :
    (d.bindingNode? p).isSome → outgoing.get? p = some a → Surrounds d contexts outgoing p a
  | viewmodel {p : NodeId} {c : ContextId} {type : TypeReference} {location : Option Location} :
    d.kind? p = some (.type ⟨some type, true, location⟩) →
    contexts.origin? c = some (.root p) → contexts.parent? c = none →
    Surrounds d contexts outgoing p (.context c)
  | bare {location : Option Location} :
    d.kind? Document.root = some (.type ⟨none, true, location⟩) →
    Surrounds d contexts outgoing Document.root .unknown
  | directive {p q : NodeId} {c c' : ContextId} {type : TypeReference}
      {location : Option Location} :
    d.kind? p = some (.type ⟨some type, false, location⟩) → d.parent? p = some q →
    Surrounds d contexts outgoing q (.context c) →
    contexts.origin? c' = some (.directive p) → contexts.parent? c' = some c →
    Surrounds d contexts outgoing p (.context c')
  | hidden {p q : NodeId} {type : TypeReference} {location : Option Location} :
    d.kind? p = some (.type ⟨some type, false, location⟩) → d.parent? p = some q →
    Surrounds d contexts outgoing q .unknown → Surrounds d contexts outgoing p .unknown

/-- What an element makes of its own context, according to what is in scope there. -/
inductive Hands (d : Document) (contexts : Forest) (scopes : Table Shape) (n : NodeId) :
    Assignment → Assignment → Prop where
  | unknown : Hands d contexts scopes n .unknown .unknown
  | dynamic {c : ContextId} :
    scopes.get? c = some .dynamic → Hands d contexts scopes n (.context c) .unknown
  | same {c : ContextId} {type : String} {members : List String} :
    scopes.get? c = some (.known type members) →
    Hands d contexts scopes n (.context c) (.context c)
  | child {c c' : ContextId} {type : String} {members : List String} {b : BindingId} :
    scopes.get? c = some (.known type members) → b ∈ d.bindingsOf n →
    contexts.origin? c' = some (.binding b) → contexts.parent? c' = some c →
    Hands d contexts scopes n (.context c) (.context c')

variable {d : Document} {contexts contexts' : Forest} {outgoing outgoing' : Table Assignment}
  {scopes scopes' : Table Shape}

theorem Surrounds.mono {p : NodeId} {a : Assignment} (h : Surrounds d contexts outgoing p a)
    (hc : contexts.Keeps contexts') (ho : outgoing.Keeps outgoing') :
    Surrounds d contexts' outgoing' p a := by
  induction h with
  | element hp hout => exact .element hp (ho _ _ hout)
  | viewmodel hk horigin hparent =>
    obtain ⟨horigin', hparent'⟩ := hc _ _ horigin
    exact .viewmodel hk horigin' (hparent'.trans hparent)
  | bare hk => exact .bare hk
  | directive hk hp _ horigin hparent ih =>
    obtain ⟨horigin', hparent'⟩ := hc _ _ horigin
    exact .directive hk hp ih horigin' (hparent'.trans hparent)
  | hidden hk hp _ ih => exact .hidden hk hp ih

theorem Hands.mono {n : NodeId} {a b : Assignment} (h : Hands d contexts scopes n a b)
    (hc : contexts.Keeps contexts') (hs : scopes.Keeps scopes') :
    Hands d contexts' scopes' n a b := by
  cases h with
  | unknown => exact .unknown
  | dynamic hscope => exact .dynamic (hs _ _ hscope)
  | same hscope => exact .same (hs _ _ hscope)
  | child hscope hb horigin hparent =>
    obtain ⟨horigin', hparent'⟩ := hc _ _ horigin
    exact .child (hs _ _ hscope) hb horigin' (hparent'.trans hparent)

/-- Something surrounds a node no deeper than the elements that have handed something on. -/
theorem Surrounds.level_le (h : d.IsTree) {i : Nat}
    (hout : ∀ n, (outgoing.get? n).isSome → d.level n ≤ i) {p : NodeId} {a : Assignment}
    (hp : Surrounds d contexts outgoing p a) : d.level p ≤ i := by
  induction hp with
  | element _ ho => exact hout _ (by rw [ho]; rfl)
  | viewmodel hk =>
    rw [Document.level_root (by rw [Document.isViewmodel, hk])]
    exact Nat.zero_le i
  | bare hk =>
    rw [Document.level_root (by rw [Document.isViewmodel, hk])]
    exact Nat.zero_le i
  | directive hk hq _ _ _ ih =>
    rw [h.level_directive hk rfl hq]
    exact ih
  | hidden hk hq _ ih =>
    rw [h.level_directive hk rfl hq]
    exact ih

namespace Engine

/-- The assignment of an element agrees with the rules, and the scope there has been looked
at. -/
def Assigned (d : Document) (e : Engine U) (n : NodeId) (a : Assignment) : Prop :=
  (d.bindingNode? n).isSome ∧
    (∃ p, d.parent? n = some p ∧ Surrounds d e.contexts e.outgoing p a) ∧
    ∀ c, a = .context c → (e.scopes.get? c).isSome

/-- What an element hands to its content agrees with the rules, and it is a context of the
view if it is known. -/
def Handed (d : Document) (e : Engine U) (n : NodeId) (b : Assignment) : Prop :=
  (∃ a, e.assignments.get? n = some a ∧ Hands d e.contexts e.scopes n a b) ∧
    ∀ c, b = .context c → c < e.contexts.size

/-- A context belongs to what it comes from. -/
def Made (d : Document) (e : Engine U) (c : ContextId) : Origin → Prop
  | .root p => e.typeContexts.get? p = some (.context c)
  | .directive p => e.typeContexts.get? p = some (.context c)
  | .binding b => ∃ n, b ∈ d.bindingsOf n ∧ e.outgoing.get? n = some (.context c)

/-- All that is fixed agrees with the rules. -/
structure Scoped (o : Oracle U) (d : Document) (e : Engine U) : Prop where
  typed : ∀ p a, e.typeContexts.get? p = some a → Surrounds d e.contexts e.outgoing p a
  assigned : ∀ n a, e.assignments.get? n = some a → e.Assigned d n a
  handed : ∀ n b, e.outgoing.get? n = some b → e.Handed d n b
  made : ∀ c origin, e.contexts.origin? c = some origin → e.Made d c origin
  learned : ∀ c s, e.scopes.get? c = some s → ScopeAnswer o e.calls c s

variable {o : Oracle U} {typeLibrary : String} {e e' : Engine U}

theorem Assigned.mono {n : NodeId} {a : Assignment} (h : e.Assigned d n a) (hg : e.Grows e') :
    e'.Assigned d n a := by
  obtain ⟨hn, ⟨p, hp, hs⟩, hscope⟩ := h
  refine ⟨hn, ⟨p, hp, hs.mono hg.contexts hg.outgoing⟩, ?_⟩
  intro c hc
  obtain ⟨s, hs⟩ := Option.isSome_iff_exists.mp (hscope c hc)
  rw [hg.scopes c s hs]
  rfl

theorem Handed.mono {n : NodeId} {b : Assignment} (h : e.Handed d n b) (hg : e.Grows e') :
    e'.Handed d n b := by
  obtain ⟨⟨a, ha, hands⟩, hvalid⟩ := h
  refine ⟨⟨a, hg.assignments n a ha, hands.mono hg.contexts hg.scopes⟩, ?_⟩
  intro c hc
  obtain ⟨origin, ho⟩ := Option.isSome_iff_exists.mp (Forest.origin?_isSome_iff.mpr (hvalid c hc))
  exact Forest.lt_size_of_origin? (hg.contexts c origin ho).1

theorem Made.mono {c : ContextId} {origin : Origin} (h : e.Made d c origin) (hg : e.Grows e') :
    e'.Made d c origin := by
  cases origin with
  | root p => exact hg.typeContexts _ _ h
  | directive p => exact hg.typeContexts _ _ h
  | binding b =>
    obtain ⟨n, hb, hn⟩ := h
    exact ⟨n, hb, hg.outgoing _ _ hn⟩

/-! ### Consequences -/

namespace Scoped

/-- What is fixed inside a node is what surrounds its content. -/
theorem surrounds_of_inside? (h : e.Scoped o d) {p : NodeId} {a : Assignment}
    (hp : e.inside? d p = some a) : Surrounds d e.contexts e.outgoing p a := by
  obtain ⟨content, hk, hout⟩ | ⟨-, -, htype⟩ := inside?_cases hp
  · refine .element ?_ hout
    rw [Document.bindingNode?_eq_some.mpr hk]
    rfl
  · exact h.typed p a htype

/-- A context that surrounds something is one of the view. -/
theorem lt_size_of_surrounds (h : e.Scoped o d) {p : NodeId} {c : ContextId}
    (hp : Surrounds d e.contexts e.outgoing p (.context c)) : c < e.contexts.size := by
  cases hp with
  | element _ hout => exact (h.handed p _ hout).2 c rfl
  | viewmodel _ horigin _ => exact Forest.lt_size_of_origin? horigin
  | directive _ _ _ horigin _ => exact Forest.lt_size_of_origin? horigin

/-- No two contexts have the same origin. -/
theorem origin_injective (h : e.Scoped o d) (hd : d.WellFormed) {c c' : ContextId}
    {origin : Origin} (hc : e.contexts.origin? c = some origin)
    (hc' : e.contexts.origin? c' = some origin) : c = c' := by
  -- an origin says where its context is kept, and one context is kept at one place
  have hm := h.made c origin hc
  have hm' := h.made c' origin hc'
  have same : some (Assignment.context c) = some (.context c') := by
    cases origin with
    | root p => exact hm.symm.trans hm'
    | directive p => exact hm.symm.trans hm'
    | binding b =>
      obtain ⟨n, hb, hn⟩ := hm
      obtain ⟨n', hb', hn'⟩ := hm'
      cases hd.node_unique hb hb'
      exact hn.symm.trans hn'
  cases same
  rfl

/-- The rules leave no choice. -/
theorem surrounds_unique (h : e.Scoped o d) (hd : d.WellFormed) {p : NodeId} {a b : Assignment}
    (ha : Surrounds d e.contexts e.outgoing p a) (hb : Surrounds d e.contexts e.outgoing p b) :
    a = b := by
  -- the kind of the node leaves one rule; that of a directive goes on to the node around it
  induction ha generalizing b with
  | element hp hout =>
    cases hb with
    | element _ hout' => exact Option.some.inj (hout.symm.trans hout')
    | viewmodel hk => exact (Document.not_element_of_type hk hp).elim
    | bare hk => exact (Document.not_element_of_type hk hp).elim
    | directive hk => exact (Document.not_element_of_type hk hp).elim
    | hidden hk => exact (Document.not_element_of_type hk hp).elim
  | viewmodel hk horigin _ =>
    cases hb with
    | element hp => exact (Document.not_element_of_type hk hp).elim
    | viewmodel _ horigin' _ => rw [h.origin_injective hd horigin horigin']
    | bare hk' => cases hk.symm.trans hk'
    | directive hk' => cases hk.symm.trans hk'
    | hidden hk' => cases hk.symm.trans hk'
  | bare hk =>
    cases hb with
    | element hp => exact (Document.not_element_of_type hk hp).elim
    | viewmodel hk' => cases hk.symm.trans hk'
    | bare _ => rfl
    | directive hk' => cases hk.symm.trans hk'
    | hidden hk' => rfl
  | directive hk hq hsur horigin _ ih =>
    cases hb with
    | element hp => exact (Document.not_element_of_type hk hp).elim
    | viewmodel hk' => cases hk.symm.trans hk'
    | bare hk' => cases hk.symm.trans hk'
    | directive _ _ _ horigin' _ => rw [h.origin_injective hd horigin horigin']
    | hidden _ hq' hsur' =>
      cases hq.symm.trans hq'
      cases ih hsur'
  | hidden hk hq hsur ih =>
    cases hb with
    | element hp => exact (Document.not_element_of_type hk hp).elim
    | viewmodel hk' => cases hk.symm.trans hk'
    | bare hk' => rfl
    | directive _ hq' hsur' _ _ =>
      cases hq.symm.trans hq'
      cases ih hsur'
    | hidden => rfl

end Scoped

/-! ### Every step agrees with the rules -/

/-- A state agrees with the rules if another one does, and all that is new does. -/
theorem Scoped.grow (h : e.Scoped o d) (hg : e.Grows e') (hcalls : e.calls ⊆ e'.calls)
    (htyped : ∀ p a, e'.typeContexts.get? p = some a →
      Surrounds d e'.contexts e'.outgoing p a ∨ e.typeContexts.get? p = some a)
    (hassigned : ∀ n a, e'.assignments.get? n = some a →
      e'.Assigned d n a ∨ e.assignments.get? n = some a)
    (hhanded : ∀ n b, e'.outgoing.get? n = some b →
      e'.Handed d n b ∨ e.outgoing.get? n = some b)
    (hmade : ∀ c origin, e'.contexts.origin? c = some origin →
      e'.Made d c origin ∨ e.contexts.origin? c = some origin)
    (hlearned : ∀ c s, e'.scopes.get? c = some s →
      ScopeAnswer o e'.calls c s ∨ e.scopes.get? c = some s) : e'.Scoped o d where
  typed p a hp := (htyped p a hp).elim id fun hold =>
    (h.typed p a hold).mono hg.contexts hg.outgoing
  assigned n a hn := (hassigned n a hn).elim id fun hold => (h.assigned n a hold).mono hg
  handed n b hn := (hhanded n b hn).elim id fun hold => (h.handed n b hold).mono hg
  made c origin hc := (hmade c origin hc).elim id fun hold => (h.made c origin hold).mono hg
  learned c s hc := (hlearned c s hc).elim id fun hold => by
    obtain ⟨unit, names, shapes, hcall, hname, hanswer, hs⟩ := h.learned c s hold
    exact ⟨unit, names, shapes, hcalls hcall, hname, hanswer, hs⟩

/-- A context that is fixed for a node that replaces the context agrees with the rules, if it
does so itself. -/
theorem Scoped.setType (h : e.Scoped o d) {p : NodeId} {a : Assignment} {f : Forest}
    (hkeeps : e.contexts.Keeps f) (hnew : e.typeContexts.get? p = none) (probe : Probe)
    (hsur : Surrounds d f e.outgoing p a)
    (hmade : ∀ c origin, f.origin? c = some origin →
      (a = .context c ∧ (origin = .root p ∨ origin = .directive p)) ∨
        e.contexts.origin? c = some origin) :
    { e with probe := probe, contexts := f,
             typeContexts := e.typeContexts.insert p a }.Scoped o d := by
  have hg : e.Grows { e with probe := probe, contexts := f,
                             typeContexts := e.typeContexts.insert p a } :=
    (grows_of_keeps hkeeps probe _).trans (grows_setType a hnew)
  refine h.grow hg (fun _ hc => hc) ?_ (fun _ _ hn => .inr hn) (fun _ _ hn => .inr hn) ?_
    (fun _ _ hc => .inr hc)
  · intro q b hq
    rcases Table.of_get?_insert hq with ⟨rfl, rfl⟩ | hq
    · exact .inl hsur
    · exact .inr hq
  · intro c origin hc
    refine (hmade c origin hc).imp_left ?_
    rintro ⟨rfl, rfl | rfl⟩
    · exact Table.get?_insert_self _ _ _
    · exact Table.get?_insert_self _ _ _

/-- What an element hands to its content agrees with the rules, if it does so itself. -/
theorem Scoped.setOutgoing (h : e.Scoped o d) {n : NodeId} {a b : Assignment} {f : Forest}
    (hkeeps : e.contexts.Keeps f) (hnew : e.outgoing.get? n = none) (probe : Probe)
    (types : Table Shape) (ha : e.assignments.get? n = some a) (hands : Hands d f e.scopes n a b)
    (hvalid : ∀ c, b = .context c → c < f.size)
    (hmade : ∀ c origin, f.origin? c = some origin →
      (b = .context c ∧ ∃ x, origin = .binding x ∧ x ∈ d.bindingsOf n) ∨
        e.contexts.origin? c = some origin) :
    { e with probe := probe, contexts := f, contextTypes := types,
             outgoing := e.outgoing.insert n b }.Scoped o d := by
  have hg : e.Grows { e with probe := probe, contexts := f, contextTypes := types,
                             outgoing := e.outgoing.insert n b } :=
    (grows_of_keeps hkeeps probe types).trans (grows_outgoing b hnew)
  refine h.grow hg (fun _ hc => hc) (fun _ _ hp => .inr hp) (fun _ _ hm => .inr hm) ?_ ?_
    (fun _ _ hc => .inr hc)
  · intro m b' hm
    rcases Table.of_get?_insert hm with ⟨rfl, rfl⟩ | hm
    · exact .inl ⟨⟨a, ha, hands⟩, hvalid⟩
    · exact .inr hm
  · intro c origin hc
    refine (hmade c origin hc).imp_left ?_
    rintro ⟨rfl, x, rfl, hx⟩
    exact ⟨n, hx, Table.get?_insert_self _ _ _⟩

theorem scopeOf?_isSome {c : ContextId} (h : (e.scopeOf? (.context c)).isSome) :
    ∃ type members, e.scopes.get? c = some (.known type members) := by
  unfold scopeOf? at h
  split at h
  · next hc => exact absurd hc Assignment.noConfusion
  · next hc =>
    cases hc
    split at h
    · next type members hs => exact ⟨type, members, hs⟩
    · cases h

/-- Without a known scope, an assigned element hands nothing known to its content. -/
theorem Assigned.hands_unknown {n : NodeId} {a : Assignment} (h : e.Assigned d n a)
    (hscope : e.scopeOf? a = none) : Hands d e.contexts e.scopes n a .unknown := by
  cases a with
  | unknown => exact .unknown
  | context c =>
    obtain ⟨s, hs⟩ := Option.isSome_iff_exists.mp (h.2.2 c rfl)
    cases s with
    | dynamic => exact .dynamic hs
    | known type members =>
      unfold scopeOf? at hscope
      simp only [hs] at hscope
      cases hscope

/-- The rules say nothing of the program and the requests, but for the answers that are
known. -/
theorem Scoped.with_same (h : e.Scoped o d) (probe : Probe) (unit : Option U)
    (diagnostics : List Diagnostic) (sizes : List Nat) {calls : List (Call U)}
    (hcalls : e.calls ⊆ calls) :
    { e with probe := probe, unit := unit, diagnostics := diagnostics,
             frontierSizes := sizes, calls := calls }.Scoped o d :=
  h.grow ⟨.refl _, .refl _, .refl _, .refl _, .refl _⟩ hcalls (fun _ _ hp => .inr hp)
    (fun _ _ hn => .inr hn) (fun _ _ hn => .inr hn) (fun _ _ hc => .inr hc)
    (fun _ _ hc => .inr hc)

theorem Scoped.declare (h : e.Scoped o d) (c : Declaration) : (e.declare c).Scoped o d :=
  h.with_same (e.probe.declare c) _ _ _ (fun _ hc => hc)

/-- Every update keeps to the rules. -/
theorem Update.scoped (h : Update o d e e') (hs : e.Scoped o d) : e'.Scoped o d := by
  cases h with
  | report => exact hs.with_same e.probe _ _ _ (fun _ hc => hc)
  | declareBinding => exact hs.declare _
  | openRoot hk hnew =>
    -- a new context is the only one whose origin is this node
    refine hs.setType (Forest.keeps_addRoot _ _ _) hnew _ (.viewmodel hk ?_ ?_) ?_
    · rw [Forest.origin?_addRoot, if_pos rfl]
    · rw [Forest.parent?_addRoot, if_pos rfl]
    · intro c origin hc
      rcases Forest.of_origin?_addRoot hc with ⟨rfl, rfl⟩ | hold
      · exact .inl ⟨rfl, .inl rfl⟩
      · exact .inr hold
  | openDirective hk hq hin hnew =>
    have hkeeps := Forest.keeps_addChild e.contexts
    refine hs.setType (hkeeps _ _ _) hnew _ (.directive hk hq
      ((hs.surrounds_of_inside? hin).mono (hkeeps _ _ _) (.refl _)) ?_ ?_) ?_
    · rw [Forest.origin?_addChild, if_pos rfl]
    · rw [Forest.parent?_addChild, if_pos rfl]
    · intro c origin hc
      rcases Forest.of_origin?_addChild hc with ⟨rfl, rfl⟩ | hold
      · exact .inl ⟨rfl, .inr rfl⟩
      · exact .inr hold
  | bare hk hnew =>
    exact hs.setType (.refl _) hnew e.probe (.bare hk) (fun _ _ hc => .inr hc)
  | hide hk hq hin hnew =>
    exact hs.setType (.refl _) hnew e.probe (.hidden hk hq (hs.surrounds_of_inside? hin))
      (fun _ _ hc => .inr hc)
  | learn type hanswer hnew =>
    refine hs.grow ⟨.refl _, .refl _, .refl _, Table.keeps_insert _ hnew, .refl _⟩ (fun _ hc => hc)
      (fun _ _ hp => .inr hp) (fun _ _ hn => .inr hn) (fun _ _ hn => .inr hn)
      (fun _ _ hc => .inr hc) ?_
    intro c s hc
    rcases Table.of_get?_insert hc with ⟨rfl, rfl⟩ | hc
    · exact .inl hanswer
    · exact .inr hc
  | assign hn hp hin hscope hnew =>
    refine hs.grow ⟨.refl _, Table.keeps_insert _ hnew, .refl _, .refl _, .refl _⟩
      (fun _ hc => hc) (fun _ _ hp => .inr hp) ?_ (fun _ _ hn => .inr hn)
      (fun _ _ hc => .inr hc) (fun _ _ hc => .inr hc)
    intro m a hm
    rcases Table.of_get?_insert hm with ⟨rfl, rfl⟩ | hm
    · exact .inl ⟨hn, ⟨_, hp, hs.surrounds_of_inside? hin⟩, hscope⟩
    · exact .inr hm
  | leave ha hscope hnew =>
    exact hs.setOutgoing (.refl _) hnew e.probe e.contextTypes ha
      ((hs.assigned _ _ ha).hands_unknown hscope) (fun _ hc => absurd hc Assignment.noConfusion)
      (fun _ _ hc => .inr hc)
  | keep ha hscope hnew =>
    obtain ⟨type, members, hs'⟩ := scopeOf?_isSome hscope
    -- the context that is kept is the one that surrounds the element
    obtain ⟨-, ⟨p, -, hsur⟩, -⟩ := hs.assigned _ _ ha
    refine hs.setOutgoing (.refl _) hnew e.probe e.contextTypes ha (.same hs') ?_
      (fun _ _ hc => .inr hc)
    rintro c ⟨⟩
    exact hs.lt_size_of_surrounds hsur
  | openBinding type ha hscope hnew _ hb =>
    obtain ⟨id, members, hs'⟩ := scopeOf?_isSome hscope
    refine hs.setOutgoing (Forest.keeps_addChild _ _ _ _) hnew _ _ ha (.child hs' hb ?_ ?_) ?_ ?_
    · rw [Forest.origin?_addChild, if_pos rfl]
    · rw [Forest.parent?_addChild, if_pos rfl]
    · rintro c ⟨⟩
      rw [Forest.size_addChild]
      exact Nat.lt_succ_self _
    · intro c origin hc
      rcases Forest.of_origin?_addChild hc with ⟨rfl, rfl⟩ | hold
      · exact .inl ⟨rfl, _, rfl, hb⟩
      · exact .inr hold

/-- Every state of a resolution agrees with the rules. -/
theorem Reach.scoped (h : Reach o d typeLibrary e) : e.Scoped o d := by
  induction h with
  | blank =>
    refine ⟨?_, ?_, ?_, ?_, ?_⟩ <;> intro _ _ hnone <;> cases hnone
  | begin frontier _ ih => exact ih.with_same _ _ _ _ (fun _ hc => hc)
  | update _ hstep ih => exact hstep.scoped ih
  | declareScope _ _ _ ih => exact ih.declare _
  | compile _ _ _ ih => exact ih.with_same _ _ _ _ (List.subset_append_left _ _)
  | inspect _ _ _ ih => exact ih.with_same _ _ _ _ (List.subset_append_left _ _)

end Engine

end ViewLint
