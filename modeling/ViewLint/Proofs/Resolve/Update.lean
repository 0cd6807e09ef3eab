import Mathlib.Logic.Relation
import ViewLint.Proofs.Context
import ViewLint.Proofs.Document.Tree
import ViewLint.Proofs.Probe.Text
import ViewLint.Proofs.Resolve.Run

/-!
# The steps of a resolution

Between two requests to the type checker, a resolution fixes one thing after the other: it
opens a context, learns a scope, assigns an element, decides what an element hands to its
content.  Nothing that is fixed is ever changed again.

## Main definitions

* `Engine.inside?` — the context of the content of a node, as far as it is fixed.
* `Engine.Update` — one thing that is fixed, with the conditions under which it is.
* `Engine.Requests` — a request that may be made.
* `Engine.Reach` — the states of a resolution while no request has failed.
* `Engine.Grows`, `Engine.Quiet` — what is fixed stays, and no request is made.

## Main results

* `Engine.Updates.grows`, `Engine.Updates.quiet` — both hold of any number of updates.
-/

namespace ViewLint

namespace Table

variable {α : Type} {t t' t'' : Table α}

/-- Every key of a table has the same value in another one. -/
def Keeps (t t' : Table α) : Prop := ∀ k v, t.get? k = some v → t'.get? k = some v

theorem Keeps.refl (t : Table α) : t.Keeps t := fun _ _ h => h

theorem Keeps.trans (h : t.Keeps t') (h' : t'.Keeps t'') : t.Keeps t'' :=
  fun k v hk => h' k v (h k v hk)

theorem keeps_insert {k : Nat} (v : α) (h : t.get? k = none) : t.Keeps (t.insert k v) := by
  intro j w hj
  have hne : j ≠ k := by
    rintro rfl
    rw [h] at hj
    cases hj
  rw [get?_insert, if_neg hne]
  exact hj

theorem get?_insert_self (t : Table α) (k : Nat) (v : α) : (t.insert k v).get? k = some v := by
  rw [get?_insert, if_pos rfl]

theorem get?_insert_of_ne {j k : Nat} (h : j ≠ k) (v : α) : (t.insert k v).get? j = t.get? j := by
  rw [get?_insert, if_neg h]

/-- A value after an insertion is the new one, or it was there before. -/
theorem of_get?_insert {j k : Nat} {v w : α} (h : (t.insert k v).get? j = some w) :
    j = k ∧ w = v ∨ t.get? j = some w := by
  rw [get?_insert] at h
  split at h
  · next hjk =>
    cases h
    exact .inl ⟨hjk, rfl⟩
  · exact .inr h

end Table

namespace Forest

/-- Every context of a forest is in another one, with the same origin and the same parent. -/
def Keeps (f f' : Forest) : Prop :=
  ∀ c origin, f.origin? c = some origin →
    f'.origin? c = some origin ∧ f'.parent? c = f.parent? c

variable {f f' f'' : Forest}

theorem Keeps.refl (f : Forest) : f.Keeps f := fun _ _ h => ⟨h, rfl⟩

theorem Keeps.trans (h : f.Keeps f') (h' : f'.Keeps f'') : f.Keeps f'' := by
  intro c origin hc
  obtain ⟨ho, hp⟩ := h c origin hc
  obtain ⟨ho', hp'⟩ := h' c origin ho
  exact ⟨ho', hp'.trans hp⟩

theorem keeps_addRoot (f : Forest) (node : NodeId) (type : Option String) :
    f.Keeps (f.addRoot node type) := by
  intro c origin hc
  have hne := Nat.ne_of_lt (lt_size_of_origin? hc)
  exact ⟨by rw [origin?_addRoot, if_neg hne, hc], by rw [parent?_addRoot, if_neg hne]⟩

theorem keeps_addChild (f : Forest) (parent : ContextId) (origin : Origin)
    (type : Option String) : f.Keeps (f.addChild parent origin type) := by
  intro c origin hc
  have hne := Nat.ne_of_lt (lt_size_of_origin? hc)
  exact ⟨by rw [origin?_addChild, if_neg hne, hc], by rw [parent?_addChild, if_neg hne]⟩

end Forest

variable {U : Type}

/-- The type checker has been asked for what is in scope in a context, and a shape is what it
has answered. -/
def ScopeAnswer (o : Oracle U) (calls : List (Call U)) (c : ContextId) (s : Shape) : Prop :=
  ∃ unit names shapes, .inspect unit names ∈ calls ∧ scopeName c ∈ names ∧
    o.inspect unit names = .ok shapes ∧ shapeOf shapes (scopeName c) = s

/-- The program of a view without any declarations: the scaffold, the imports and the
handlers. -/
def Document.opening (d : Document) (typeLibrary : String) : Probe :=
  ((Probe.initial d.file typeLibrary).emitImports d.imports).emitHandlers d.importedHandlers.toList

namespace Engine

/-- The context that the content of a node stands in, as far as it is fixed. -/
def inside? (e : Engine U) (d : Document) (p : NodeId) : Option Assignment :=
  match d.kind? p with
  | some (.binding _) => e.outgoing.get? p
  | some (.type _) => e.typeContexts.get? p
  | none => none

/-- The state at the start of a round over given elements. -/
def begun (e : Engine U) (frontier : List NodeId) : Engine U :=
  { e with frontierSizes := e.frontierSizes ++ [frontier.length] }

/-- The state in which nothing has been fixed. -/
def blank (d : Document) (typeLibrary : String) : Engine U :=
  ⟨d.opening typeLibrary, none, .empty, .empty, .empty, .empty, .empty, .empty, [], [], []⟩

/-- The values of all bindings of an element have been declared. -/
def Evaluated (d : Document) (e : Engine U) (n : NodeId) : Prop :=
  ∀ k ∈ d.bindingsOf n, ∃ b c members,
    .transformation b c members ∈ e.probe.declarations ∧ b.id = k

/-- One thing that is fixed between two requests. -/
inductive Update (o : Oracle U) (d : Document) (e : Engine U) : Engine U → Prop where
  | report (kind : Kind) (location : Option Location) (arguments : List String) :
    Update o d e (e.report d kind location arguments)
  /-- The value of a binding is declared once, in the context that its element is assigned. -/
  | declareBinding {n : NodeId} {b : Binding} {c : ContextId} {members : List String} :
    d.bindings[b.id]? = some b → b.id ∈ d.bindingsOf n →
    e.assignments.get? n = some (.context c) → e.scopeOf? (.context c) = some (c, members) →
    (∀ x c' members', .transformation x c' members' ∈ e.probe.declarations → x.id ≠ b.id) →
    Update o d e (e.declare (.transformation b c members))
  /-- The first look at a view model opens its context. -/
  | openRoot {p : NodeId} {type : TypeReference} {location : Option Location} :
    d.kind? p = some (.type ⟨some type, true, location⟩) → e.typeContexts.get? p = none →
    Update o d e (e.openRoot p type).2
  /-- The first look at a directive whose surroundings are known opens its context there. -/
  | openDirective {p q : NodeId} {c : ContextId} {type : TypeReference}
      {location : Option Location} :
    d.kind? p = some (.type ⟨some type, false, location⟩) → d.parent? p = some q →
    e.inside? d q = some (.context c) → e.typeContexts.get? p = none →
    Update o d e (e.openDirective p type c).2
  /-- Without a view model nothing is known at the root. -/
  | bare {location : Option Location} :
    d.kind? Document.root = some (.type ⟨none, true, location⟩) →
    e.typeContexts.get? Document.root = none →
    Update o d e (e.setType Document.root .unknown).2
  /-- A directive in unknown surroundings declares nothing. -/
  | hide {p q : NodeId} {type : TypeReference} {location : Option Location} :
    d.kind? p = some (.type ⟨some type, false, location⟩) → d.parent? p = some q →
    e.inside? d q = some .unknown → e.typeContexts.get? p = none →
    Update o d e (e.setType p .unknown).2
  | learn {c : ContextId} {scope : Shape} (type : Shape) :
    ScopeAnswer o e.calls c scope → e.scopes.get? c = none →
    Update o d e { e with
      scopes := e.scopes.insert c scope
      contextTypes := e.contextTypes.insert c type }
  /-- An element is assigned the context that its parent hands to it, once the scope there has
  been looked at. -/
  | assign {n p : NodeId} {a : Assignment} :
    (d.bindingNode? n).isSome → d.parent? n = some p → e.inside? d p = some a →
    (∀ c, a = .context c → (e.scopes.get? c).isSome) → e.assignments.get? n = none →
    Update o d e { e with assignments := e.assignments.insert n a }
  /-- Where nothing is known to be in scope, nothing is known of the content either. -/
  | leave {n : NodeId} {a : Assignment} :
    e.assignments.get? n = some a → e.scopeOf? a = none → e.outgoing.get? n = none →
    Update o d e { e with outgoing := e.outgoing.insert n .unknown }
  | keep {n : NodeId} {c : ContextId} :
    e.assignments.get? n = some (.context c) → (e.scopeOf? (.context c)).isSome →
    e.outgoing.get? n = none → e.Evaluated d n →
    Update o d e { e with outgoing := e.outgoing.insert n (.context c) }
  /-- A binding of an element makes a context for its content. -/
  | openBinding {n : NodeId} {c : ContextId} {b : Binding} (type : Shape) :
    e.assignments.get? n = some (.context c) → (e.scopeOf? (.context c)).isSome →
    e.outgoing.get? n = none → e.Evaluated d n → b.id ∈ d.bindingsOf n →
    Update o d e { (e.openBinding c b type).2 with
      outgoing := e.outgoing.insert n (.context e.contexts.size) }

/-- Any number of updates. -/
def Updates (o : Oracle U) (d : Document) : Engine U → Engine U → Prop :=
  Relation.ReflTransGen (Update o d)

/-- The requests that may be made: what is new is compiled, and the type checker is asked about
what it has been given last. -/
inductive Requests (e : Engine U) : Call U → Prop where
  | compile : e.probe.pending ≠ "" → Requests e (.compile e.probe.commit.1 e.unit)
  | inspect {unit : U} {names : List String} :
    e.unit = some unit → e.probe.pending = "" → names ≠ [] → names.Nodup →
    (∀ name ∈ names, ∃ c ∈ e.probe.declarations, c.Gives name) →
    Requests e (.inspect unit names)
  | findings {unit : U} :
    e.unit = some unit → e.probe.pending = "" → Requests e (.findings unit)

/-- The states of a resolution while no request has failed and the type errors have not been
asked for. -/
inductive Reach (o : Oracle U) (d : Document) (typeLibrary : String) : Engine U → Prop where
  | blank : Reach o d typeLibrary (.blank d typeLibrary)
  | begin {e : Engine U} (frontier : List NodeId) : Reach o d typeLibrary e →
    Reach o d typeLibrary (e.begun frontier)
  | update {e e' : Engine U} : Reach o d typeLibrary e → Update o d e e' →
    Reach o d typeLibrary e'
  /-- The scope of a context is declared once. -/
  | declareScope {e : Engine U} {c : ContextId} : Reach o d typeLibrary e →
    c < e.contexts.size → .scope c ∉ e.probe.declarations →
    Reach o d typeLibrary (e.declare (.scope c))
  | compile {e : Engine U} {unit : U} : Reach o d typeLibrary e →
    Requests e (.compile e.probe.commit.1 e.unit) →
    o.compile e.probe.commit.1 e.unit = .ok unit → Reach o d typeLibrary (e.compiled unit)
  | inspect {e : Engine U} {unit : U} {names : List String} {shapes : List (String × Shape)} :
    Reach o d typeLibrary e → Requests e (.inspect unit names) →
    o.inspect unit names = .ok shapes →
    Reach o d typeLibrary (e.asked (.inspect unit names))

/-- What is left of a state when a request has failed. -/
def Failed (o : Oracle U) (d : Document) (typeLibrary : String) (f : OracleError)
    (e' : Engine U) : Prop :=
  ∃ e call, Reach o d typeLibrary e ∧ Requests e call ∧ o.failure? call = some f ∧
    e'.calls = e.calls ++ [call]

variable {o : Oracle U} {d : Document} {typeLibrary : String} {e e' e'' : Engine U}

theorem inside?_type (e : Engine U) {p : NodeId} {content : TypeNode}
    (h : d.kind? p = some (.type content)) : e.inside? d p = e.typeContexts.get? p := by
  rw [inside?, h]

theorem inside?_binding (e : Engine U) {p : NodeId} {content : BindingNode}
    (h : d.kind? p = some (.binding content)) : e.inside? d p = e.outgoing.get? p := by
  rw [inside?, h]

/-- What is fixed inside a node is what an element hands on or what a type node names. -/
theorem inside?_cases {p : NodeId} {a : Assignment} (h : e.inside? d p = some a) :
    (∃ content, d.kind? p = some (.binding content) ∧ e.outgoing.get? p = some a) ∨
      ∃ content, d.kind? p = some (.type content) ∧ e.typeContexts.get? p = some a := by
  unfold inside? at h
  cases hk : d.kind? p with
  | none =>
    rw [hk] at h
    cases h
  | some kind =>
    rw [hk] at h
    cases kind with
    | binding content => exact .inl ⟨content, rfl, h⟩
    | type content => exact .inr ⟨content, rfl, h⟩

theorem Reach.updates (h : Reach o d typeLibrary e) (hu : Updates o d e e') :
    Reach o d typeLibrary e' := by
  induction hu with
  | refl => exact h
  | tail _ hstep ih => exact ih.update hstep

/-- The view model is the first thing that is fixed. -/
theorem update_initial (h : d.IsTree) (typeLibrary : String) :
    Update o d (blank d typeLibrary) (initial d typeLibrary) := by
  obtain ⟨⟨type, isRoot, location⟩, hkind, hroot⟩ := h.root_kind
  cases hroot
  have hview : d.viewmodel? = type := by
    unfold Document.viewmodel?
    obtain ⟨n, hn, hnk⟩ := Option.map_eq_some_iff.mp hkind
    rw [hn, Option.bind_some, Node.typeNode?, hnk]
    rfl
  unfold initial
  rw [hview]
  cases type with
  | none => exact .bare hkind rfl
  | some type => exact .openRoot hkind rfl

/-! ### What is fixed stays fixed -/

/-- What is fixed in a state is the same in another one. -/
structure Grows (e e' : Engine U) : Prop where
  typeContexts : e.typeContexts.Keeps e'.typeContexts
  assignments : e.assignments.Keeps e'.assignments
  outgoing : e.outgoing.Keeps e'.outgoing
  scopes : e.scopes.Keeps e'.scopes
  contexts : e.contexts.Keeps e'.contexts

theorem Grows.refl (e : Engine U) : e.Grows e := ⟨.refl _, .refl _, .refl _, .refl _, .refl _⟩

theorem Grows.trans (h : e.Grows e') (h' : e'.Grows e'') : e.Grows e'' :=
  ⟨h.typeContexts.trans h'.typeContexts, h.assignments.trans h'.assignments,
    h.outgoing.trans h'.outgoing, h.scopes.trans h'.scopes, h.contexts.trans h'.contexts⟩

theorem Grows.inside? (h : e.Grows e') {p : NodeId} {a : Assignment}
    (hp : e.inside? d p = some a) : e'.inside? d p = some a := by
  obtain ⟨content, hk, hout⟩ | ⟨content, hk, htype⟩ := inside?_cases hp
  · exact (inside?_binding e' hk).trans (h.outgoing _ _ hout)
  · exact (inside?_type e' hk).trans (h.typeContexts _ _ htype)

/-- Whatever is declared, and whichever contexts are opened. -/
theorem grows_of_keeps {f : Forest} (h : e.contexts.Keeps f) (p : Probe) (types : Table Shape) :
    e.Grows { e with probe := p, contexts := f, contextTypes := types } :=
  ⟨.refl _, .refl _, .refl _, .refl _, h⟩

theorem grows_declare (e : Engine U) (c : Declaration) : e.Grows (e.declare c) :=
  grows_of_keeps (.refl _) (e.probe.declare c) _

theorem grows_setType {p : NodeId} (a : Assignment) (h : e.typeContexts.get? p = none) :
    e.Grows (e.setType p a).2 :=
  ⟨Table.keeps_insert a h, .refl _, .refl _, .refl _, .refl _⟩

theorem grows_outgoing {n : NodeId} (a : Assignment) (h : e.outgoing.get? n = none) :
    e.Grows { e with outgoing := e.outgoing.insert n a } :=
  ⟨.refl _, .refl _, Table.keeps_insert a h, .refl _, .refl _⟩

theorem Update.grows (h : Update o d e e') : e.Grows e' := by
  cases h with
  | report => exact ⟨.refl _, .refl _, .refl _, .refl _, .refl _⟩
  | declareBinding => exact grows_declare e _
  | openRoot _ hnew =>
    exact (grows_of_keeps (Forest.keeps_addRoot _ _ _) _ _).trans (grows_setType _ hnew)
  | openDirective _ _ _ hnew =>
    exact (grows_of_keeps (Forest.keeps_addChild _ _ _ _) _ _).trans (grows_setType _ hnew)
  | bare _ hnew => exact grows_setType _ hnew
  | hide _ _ _ hnew => exact grows_setType _ hnew
  | learn _ _ hnew => exact ⟨.refl _, .refl _, .refl _, Table.keeps_insert _ hnew, .refl _⟩
  | assign _ _ _ _ hnew => exact ⟨.refl _, Table.keeps_insert _ hnew, .refl _, .refl _, .refl _⟩
  | leave _ _ hnew => exact grows_outgoing _ hnew
  | keep _ _ hnew => exact grows_outgoing _ hnew
  | openBinding type _ _ hnew =>
    exact (grows_of_keeps (Forest.keeps_addChild _ _ _ _) _ _).trans (grows_outgoing _ hnew)

theorem Updates.grows (h : Updates o d e e') : e.Grows e' := by
  induction h with
  | refl => exact .refl e
  | tail _ hstep ih => exact ih.trans hstep.grows

/-! ### Updates make no requests -/

/-- No request and no round lies between two states. -/
structure Quiet (e e' : Engine U) : Prop where
  unit : e'.unit = e.unit
  calls : e'.calls = e.calls
  frontierSizes : e'.frontierSizes = e.frontierSizes
  revisions : e'.probe.revisions = e.probe.revisions

theorem Quiet.trans (h : e.Quiet e') (h' : e'.Quiet e'') : e.Quiet e'' :=
  ⟨h'.unit.trans h.unit, h'.calls.trans h.calls, h'.frontierSizes.trans h.frontierSizes,
    h'.revisions.trans h.revisions⟩

theorem quiet_declare (e : Engine U) (c : Declaration) : e.Quiet (e.declare c) :=
  ⟨rfl, rfl, rfl, e.probe.revisions_declare c⟩

theorem Update.quiet (h : Update o d e e') : e.Quiet e' := by
  cases h with
  | declareBinding => exact quiet_declare e _
  | openRoot => exact ⟨rfl, rfl, rfl, e.probe.revisions_declare _⟩
  | openDirective => exact ⟨rfl, rfl, rfl, e.probe.revisions_declare _⟩
  | openBinding => exact ⟨rfl, rfl, rfl, e.probe.revisions_declare _⟩
  | report | bare | hide | learn | assign | leave | keep => exact ⟨rfl, rfl, rfl, rfl⟩

theorem Updates.quiet (h : Updates o d e e') : e.Quiet e' := by
  induction h with
  | refl => exact ⟨rfl, rfl, rfl, rfl⟩
  | tail _ hstep ih => exact ih.trans hstep.quiet

end Engine

end ViewLint
