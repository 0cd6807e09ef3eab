import ViewLint.Proofs.Resolve.Phases

/-!
# What the type checker tells

A resolution learns about types from the answers to its requests, and an answer decides what is
reported and which contexts are opened.  This module says so without the state of a resolution:
what has been told of a name is read off the requests, and what follows from it for contexts,
bindings and elements is read off that.

## Main definitions

* `Oracle.told` — what the type checker has told of a name in answer to some requests.
* `Document.changing` — the bindings of an element that change the type in scope.
* `Document.spawned?` — the binding that opens a context for the content of an element.
* `Document.complaints`, `Document.unknownContext?` — what is reported on an element that is
  evaluated, and on a context whose scope is looked at.

## Main results

* `Oracle.told_append`, `Oracle.told_inspect` — what is told of a name the first time counts.
* `Engine.childContext_eq` — what an evaluated element hands to its content, and what is reported.
* `Engine.foldl_learnScope` — what is known after scopes have been learned.
-/

namespace ViewLint

variable {U : Type}

/-! ### Answers -/

/-- The names that a request asks for. -/
def Call.names : Call U → List String
  | .inspect _ names => names
  | .compile _ _ => []
  | .findings _ => []

namespace Oracle

/-- What the type checker tells of a name in answer to a request. -/
def answer? (o : Oracle U) (name : String) : Call U → Option Shape
  | .inspect unit names =>
    match o.inspect unit names with
    | .ok shapes => if name ∈ names then some (shapeOf shapes name) else none
    | .error _ => none
  | .compile _ _ => none
  | .findings _ => none

/-- What the type checker has told of a name, in answer to the first request that asks for it. -/
def told (o : Oracle U) (calls : List (Call U)) (name : String) : Option Shape :=
  calls.findSome? (o.answer? name)

variable (o : Oracle U)

theorem told_append (calls calls' : List (Call U)) (name : String) :
    o.told (calls ++ calls') name = (o.told calls name).or (o.told calls' name) :=
  List.findSome?_append

/-- What has been told stays. -/
theorem told_append_of_eq_some {calls : List (Call U)} {name : String} {s : Shape}
    (h : o.told calls name = some s) (calls' : List (Call U)) :
    o.told (calls ++ calls') name = some s := by
  rw [told_append, h, Option.some_or]

/-- Nothing has been told of a name that has not been asked for. -/
theorem told_eq_none {calls : List (Call U)} {name : String}
    (h : name ∉ calls.flatMap Call.names) : o.told calls name = none := by
  rw [told, List.findSome?_eq_none_iff]
  intro call hcall
  have hname : name ∉ call.names := fun hmem => h (List.mem_flatMap.mpr ⟨call, hcall, hmem⟩)
  cases call with
  | inspect unit names =>
    rw [answer?]
    split
    · exact if_neg hname
    · rfl
  | compile => rfl
  | findings => rfl

theorem told_inspect {unit : U} {names : List String} {shapes : List (String × Shape)}
    (h : o.inspect unit names = .ok shapes) (name : String) :
    o.told [.inspect unit names] name =
      if name ∈ names then some (shapeOf shapes name) else none := by
  rw [told, List.findSome?_singleton, answer?, h]

end Oracle

/-! ### Contexts and bindings -/

/-- What is known about names. -/
abbrev Knowledge : Type := String → Option Shape

namespace Knowledge

/-- The type of a named value, if it is known. -/
def type? (k : Knowledge) (name : String) : Option String := (k name).bind (·.typeId?)

theorem type?_congr {k k' : Knowledge} {name : String} (h : k name = k' name) :
    k.type? name = k'.type? name := by
  rw [type?, type?, h]

end Knowledge

namespace Binding

/-- A binding changes the type in scope of a context: its alias can be determined, and the type of
its value is known and is not that of the context. -/
def changes (k : Knowledge) (c : ContextId) (b : Binding) : Bool :=
  b.itemAlias ≠ some .undeterminable ∧ (k.type? (bindingName b.id)).isSome ∧
    k.type? (bindingName b.id) ≠ k.type? (contextName c)

/-- What is wrong with a binding: its alias, or else the type of its value. -/
def problem? (k : Knowledge) (b : Binding) : Option Kind :=
  if b.itemAlias = some .undeterminable then some .unknownScope
  else if k.type? (bindingName b.id) = none then some .bindingUnknown
  else none

/-- The report of something that is wrong with a binding. -/
def report (d : Document) (kind : Kind) (b : Binding) : Diagnostic :=
  .ofKind kind d.file (some b.handler.location) [b.handler.value]

/-- The report of what is wrong with a binding. -/
def complaint? (d : Document) (k : Knowledge) (b : Binding) : Option Diagnostic :=
  (b.problem? k).map fun kind => b.report d kind

theorem problem?_cases {k : Knowledge} {b : Binding} {kind : Kind} (h : b.problem? k = some kind) :
    kind = .unknownScope ∨ kind = .bindingUnknown := by
  unfold problem? at h
  split at h
  · exact .inl (Option.some.inj h).symm
  · split at h
    · exact .inr (Option.some.inj h).symm
    · cases h

theorem problem?_eq_unknownScope {k : Knowledge} {b : Binding} :
    b.problem? k = some .unknownScope ↔ b.itemAlias = some .undeterminable := by
  unfold problem?
  split
  · next h => exact iff_of_true rfl h
  · next h =>
    refine iff_of_false ?_ h
    split <;> exact fun hkind => nomatch hkind

theorem problem?_eq_bindingUnknown {k : Knowledge} {b : Binding} :
    b.problem? k = some .bindingUnknown ↔
      b.itemAlias ≠ some .undeterminable ∧ k.type? (bindingName b.id) = none := by
  unfold problem?
  split
  · next h => exact iff_of_false (fun hkind => nomatch hkind) fun hne => hne.1 h
  · next h =>
    split
    · next hnone => exact iff_of_true rfl ⟨h, hnone⟩
    · next hsome => exact iff_of_false (fun hkind => nomatch hkind) fun hnone => hsome hnone.2

end Binding

namespace Document

/-- The bindings of an element. -/
def bindingsAt (d : Document) (n : NodeId) : List Binding :=
  (d.bindingsOf n).filterMap (d.bindings[·]?)

/-- The bindings of an element that change the type in scope of a context. -/
def changing (d : Document) (k : Knowledge) (n : NodeId) (c : ContextId) : List Binding :=
  (d.bindingsAt n).filter (·.changes k c)

/-- The binding that opens a context for the content of an element: the only one that changes the
type in scope, on an element that has no conflict. -/
def spawned? (d : Document) (k : Knowledge) (n : NodeId) (c : ContextId) : Option Binding :=
  match d.bindingNode? n with
  | none => none
  | some content =>
    if content.conflicting then none
    else
      match d.changing k n c with
      | [b] => some b
      | _ => none

/-- The report of two or more bindings of an element that change the type in scope. -/
def competition? (d : Document) (k : Knowledge) (n : NodeId) (c : ContextId) : Option Diagnostic :=
  match d.bindingNode? n with
  | none => none
  | some content =>
    if content.conflicting = false ∧ 2 ≤ (d.changing k n c).length then
      some (.ofKind .multipleGeneratingBindings d.file (some content.location) [])
    else none

/-- What is reported on an element that is evaluated in a context. -/
def complaints (d : Document) (k : Knowledge) (n : NodeId) (c : ContextId) : List Diagnostic :=
  (d.bindingsAt n).filterMap (·.complaint? d k) ++ (d.competition? k n c).toList

/-- What is reported on a context in which nothing is known to be in scope, at an element in it. -/
def unknownContext? (d : Document) (k : Knowledge) (found : ContextId × NodeId) :
    Option Diagnostic :=
  if k (scopeName found.1) = some .dynamic then
    some (.ofKind .contextUnknown d.file ((d.bindingNode? found.2).map (·.location)) [])
  else none

variable {d : Document} {k : Knowledge} {n : NodeId} {c : ContextId}

theorem spawned?_eq_some {content : BindingNode} (hn : d.bindingNode? n = some content)
    {b : Binding} :
    d.spawned? k n c = some b ↔ content.conflicting = false ∧ d.changing k n c = [b] := by
  rw [spawned?, hn]
  dsimp only
  cases content.conflicting with
  | true => exact iff_of_false (fun h => nomatch h) fun h => nomatch h.1
  | false =>
    rw [if_neg Bool.false_ne_true]
    split
    · next x hx =>
      rw [hx]
      simp
    · next hne => exact iff_of_false (fun h => nomatch h) fun h => hne b h.2

theorem competition?_eq_some {content : BindingNode} (hn : d.bindingNode? n = some content)
    {x : Diagnostic} :
    d.competition? k n c = some x ↔
      (content.conflicting = false ∧ 2 ≤ (d.changing k n c).length) ∧
        .ofKind .multipleGeneratingBindings d.file (some content.location) [] = x := by
  rw [competition?, hn]
  dsimp only
  split
  · next h => simp [h]
  · next h => simp [h]

/-- Only what is known of the bindings of an element and of the type of its context matters. -/
theorem changing_congr {k' : Knowledge} (hc : k (contextName c) = k' (contextName c))
    (hb : ∀ b ∈ d.bindingsAt n, k (bindingName b.id) = k' (bindingName b.id)) :
    d.changing k n c = d.changing k' n c := by
  refine List.filter_congr ?_
  intro b hmem
  rw [Binding.changes, Binding.changes, Knowledge.type?_congr hc, Knowledge.type?_congr (hb b hmem)]

theorem spawned?_congr {k' : Knowledge} (hc : k (contextName c) = k' (contextName c))
    (hb : ∀ b ∈ d.bindingsAt n, k (bindingName b.id) = k' (bindingName b.id)) :
    d.spawned? k n c = d.spawned? k' n c := by
  rw [spawned?, spawned?, changing_congr hc hb]

theorem complaints_congr {k' : Knowledge} (hc : k (contextName c) = k' (contextName c))
    (hb : ∀ b ∈ d.bindingsAt n, k (bindingName b.id) = k' (bindingName b.id)) :
    d.complaints k n c = d.complaints k' n c := by
  have hcomplaints : (d.bindingsAt n).filterMap (·.complaint? d k) =
      (d.bindingsAt n).filterMap (·.complaint? d k') := by
    refine List.filterMap_congr ?_
    intro b hmem
    rw [Binding.complaint?, Binding.complaint?, Binding.problem?, Binding.problem?,
      Knowledge.type?_congr (hb b hmem)]
  rw [complaints, complaints, hcomplaints, competition?, competition?, changing_congr hc hb]

theorem mem_bindingsAt (hd : d.WellFormed) {b : Binding} :
    b ∈ d.bindingsAt n ↔ b.id ∈ d.bindingsOf n ∧ d.bindings[b.id]? = some b := by
  rw [bindingsAt, List.mem_filterMap]
  constructor
  · rintro ⟨i, hi, hget⟩
    obtain ⟨binding, hget', rfl⟩ := Engine.exists_binding hd hi
    cases hget'.symm.trans hget
    exact ⟨hi, hget⟩
  · rintro ⟨hid, hget⟩
    exact ⟨b.id, hid, hget⟩

theorem nodup_bindingsAt (hd : d.WellFormed) (n : NodeId) : (d.bindingsAt n).Nodup := by
  rw [bindingsAt, List.Nodup, List.pairwise_filterMap]
  refine (Engine.nodup_bindingsOf hd n).imp_of_mem ?_
  rintro i j hi hj hne b hb b' hb' rfl
  -- a binding bears the number under which it is listed
  obtain ⟨x, hx, rfl⟩ := Engine.exists_binding hd hi
  obtain ⟨y, hy, rfl⟩ := Engine.exists_binding hd hj
  cases hx.symm.trans hb
  cases hy.symm.trans hb'
  exact hne rfl

end Document

/-! ### Kinds of reports -/

theorem Kind.code_injective {kind kind' : Kind} (h : kind.code = kind'.code) : kind = kind' := by
  have hsome := congrArg ofCode? h
  rw [ofCode?_code, ofCode?_code] at hsome
  exact Option.some.inj hsome

namespace Diagnostic

theorem isOf_ofKind (kind kind' : Kind) (file : String) (location : Option Location)
    (arguments : List String) :
    (ofKind kind file location arguments).isOf kind' = decide (kind = kind') := by
  rw [isOf, Bool.eq_iff_iff, beq_iff_eq, decide_eq_true_eq]
  exact ⟨fun hcode => Kind.code_injective hcode, fun hkind => congrArg Kind.code hkind⟩

/-- A diagnostic is of one kind at most. -/
theorem isOf_unique {x : Diagnostic} {kind kind' : Kind} (h : x.isOf kind = true)
    (h' : x.isOf kind' = true) : kind = kind' :=
  Kind.code_injective ((eq_of_beq h).symm.trans (eq_of_beq h'))

/-- What a type checker finds has none of the linter's own kinds. -/
theorem isOf_ofFinding (kind : Kind) (file : String) (code : Nat) (message : String)
    (severity : Severity) (location : Option Location) :
    (ofFinding file code message severity location).isOf kind = false := by
  rw [isOf, beq_eq_false_iff_ne]
  intro hcode
  have hchars := congrArg String.toList hcode
  rw [ofFinding, String.toList_append] at hchars
  cases kind <;> cases hchars

end Diagnostic

/-- What is wrong with bindings is reported under its kind, once for each of them. -/
theorem Binding.filter_complaint? (d : Document) (k : Knowledge) (kind : Kind) (bs : List Binding) :
    (bs.filterMap (·.complaint? d k)).filter (·.isOf kind) =
      (bs.filter fun b => b.problem? k = some kind).map (·.report d kind) := by
  induction bs with
  | nil => rfl
  | cons b bs ih =>
    rw [List.filterMap_cons, List.filter_cons, complaint?]
    cases b.problem? k with
    | none => simpa using ih
    | some found =>
      by_cases hkind : found = kind
      · subst hkind
        simp [report, Diagnostic.isOf_ofKind, ih]
      · simp [report, Diagnostic.isOf_ofKind, hkind, ih]

/-- What is reported on an element under a kind. -/
theorem Document.filter_complaints (d : Document) (k : Knowledge) (n : NodeId) (c : ContextId)
    (kind : Kind) :
    (d.complaints k n c).filter (·.isOf kind) =
      ((d.bindingsAt n).filter fun b => b.problem? k = some kind).map (·.report d kind) ++
        if kind = .multipleGeneratingBindings then (d.competition? k n c).toList else [] := by
  have hcompetition : (d.competition? k n c).toList.filter (·.isOf kind) =
      if kind = .multipleGeneratingBindings then (d.competition? k n c).toList else [] := by
    unfold competition?
    split
    · split <;> rfl
    · split
      · by_cases hkind : kind = .multipleGeneratingBindings
        · simp [Diagnostic.isOf_ofKind, hkind]
        · simp [Diagnostic.isOf_ofKind, hkind, Ne.symm hkind]
      · split <;> rfl
  rw [complaints, List.filter_append, Binding.filter_complaint?, hcompetition]

/-- Bindings come under two kinds only. -/
theorem Document.filter_problem?_eq_nil (d : Document) (k : Knowledge) (n : NodeId) (kind : Kind)
    (halias : kind ≠ .unknownScope) (hvalue : kind ≠ .bindingUnknown) :
    ((d.bindingsAt n).filter fun b => b.problem? k = some kind) = [] := by
  rw [List.filter_eq_nil_iff]
  intro b _ hb
  exact (Binding.problem?_cases (of_decide_eq_true hb)).elim halias hvalue

/-! ### What is learned and reported -/

namespace Engine

variable {d : Document} {e : Engine U} {k : Knowledge} {shapes : List (String × Shape)}

/-- The state after some reports. -/
def noted (e : Engine U) (ds : List Diagnostic) : Engine U :=
  { e with diagnostics := e.diagnostics ++ ds }

theorem noted_nil (e : Engine U) : e.noted [] = e := by
  rw [noted, List.append_nil]

theorem noted_noted (e : Engine U) (ds ds' : List Diagnostic) :
    (e.noted ds).noted ds' = e.noted (ds ++ ds') := by
  rw [noted, noted, noted, List.append_assoc]

theorem changesType_eq {c : ContextId} {b : Binding}
    (hb : k (bindingName b.id) = some (shapeOf shapes (bindingName b.id))) :
    e.changesType d shapes (k.type? (contextName c)) b =
      (b.changes k c, e.noted (b.complaint? d k).toList) := by
  have htype : k.type? (bindingName b.id) = (shapeOf shapes (bindingName b.id)).typeId? := by
    rw [Knowledge.type?, hb, Option.bind_some]
  unfold changesType Binding.changes Binding.complaint? Binding.problem?
  rw [htype]
  split
  · next halias => simp [halias, noted, report, Binding.report]
  · next halias =>
    cases (shapeOf shapes (bindingName b.id)).typeId? with
    | none => simp [halias, noted, report, Binding.report]
    | some id => simp [halias, noted]

theorem candidates_eq {c : ContextId} {bs : List Binding}
    (hbs : ∀ b ∈ bs, k (bindingName b.id) = some (shapeOf shapes (bindingName b.id))) :
    e.candidates d shapes (k.type? (contextName c)) bs =
      (bs.filter (·.changes k c), e.noted (bs.filterMap (·.complaint? d k))) := by
  induction bs generalizing e with
  | nil => rw [candidates, List.filter_nil, List.filterMap_nil, noted_nil]
  | cons b bs ih =>
    obtain ⟨hb, hbs⟩ := List.forall_mem_cons.mp hbs
    rw [candidates, changesType_eq hb]
    dsimp only
    rw [ih hbs, noted_noted, List.filter_cons, List.filterMap_cons]
    cases b.complaint? d k <;> rfl

/-- What an evaluated element hands to its content: a context that a binding opens, or its own. -/
theorem childContext_eq {n : NodeId} {c : ContextId} (hn : (d.bindingNode? n).isSome)
    (hc : (e.contextTypes.get? c).bind (·.typeId?) = k.type? (contextName c))
    (hbs : ∀ b ∈ d.bindingsAt n, k (bindingName b.id) = some (shapeOf shapes (bindingName b.id))) :
    e.childContext d shapes n c =
      match d.spawned? k n c with
      | some b => (e.noted (d.complaints k n c)).openBinding c b (shapeOf shapes (bindingName b.id))
      | none => (.context c, e.noted (d.complaints k n c)) := by
  obtain ⟨content, hcontent⟩ := Option.isSome_iff_exists.mp hn
  have hbindings : content.bindings.filterMap (d.bindings[·]?) = d.bindingsAt n := by
    rw [Document.bindingsAt, Document.bindingsOf_eq (Document.bindingNode?_eq_some.mp hcontent)]
  rw [childContext, hcontent]
  dsimp only
  rw [hc, hbindings, candidates_eq hbs]
  unfold Document.complaints Document.competition? Document.spawned? Document.changing
  rw [hcontent]
  dsimp only
  cases content.conflicting with
  | true => simp
  | false =>
    -- how many bindings change the type decides
    cases (d.bindingsAt n).filter (·.changes k c) with
    | nil => simp
    | cons b bs =>
      cases bs with
      | nil => simp
      | cons b' bs =>
        simp [noted, report]

/-- What is said of a number in a list, and what of the others. -/
theorem ite_mem_cons {α : Type} (x : Nat) {c : Nat} (xs : List Nat) (f : Nat → Option α)
    (a : Option α) :
    (if c ∈ xs then f c else if c = x then f x else a) = if c ∈ x :: xs then f c else a := by
  by_cases hx : c = x
  · rw [if_pos (List.mem_cons.mpr (.inl hx)), if_pos hx, hx, ite_self]
  · rw [if_neg hx]
    refine if_congr ?_ rfl rfl
    rw [List.mem_cons, or_iff_right hx]

theorem learnScope_eq {x : ContextId × NodeId}
    (hx : k (scopeName x.1) = some (shapeOf shapes (scopeName x.1))) :
    learnScope d shapes e x =
      { e with
        scopes := e.scopes.insert x.1 (shapeOf shapes (scopeName x.1))
        contextTypes := e.contextTypes.insert x.1 (shapeOf shapes (contextName x.1))
        diagnostics := e.diagnostics ++ (d.unknownContext? k x).toList } := by
  obtain ⟨c, n⟩ := x
  unfold learnScope Document.unknownContext?
  dsimp only at hx ⊢
  rw [hx]
  cases shapeOf shapes (scopeName c) <;> simp [Shape.isDynamic, report]

/-- What is known after scopes have been learned. -/
theorem foldl_learnScope (shapes : List (String × Shape)) (found : List (ContextId × NodeId))
    (e : Engine U)
    (hk : ∀ c ∈ found.map (·.1), k (scopeName c) = some (shapeOf shapes (scopeName c))) :
    ∃ scopes types, found.foldl (learnScope d shapes) e =
        { e with
          scopes
          contextTypes := types
          diagnostics := e.diagnostics ++ found.filterMap (d.unknownContext? k) } ∧
      (∀ c : ContextId, scopes.get? c =
        if c ∈ found.map (·.1) then some (shapeOf shapes (scopeName c)) else e.scopes.get? c) ∧
      ∀ c : ContextId, types.get? c =
        if c ∈ found.map (·.1) then some (shapeOf shapes (contextName c))
        else e.contextTypes.get? c := by
  induction found generalizing e with
  | nil => exact ⟨e.scopes, e.contextTypes, by simp, by simp, by simp⟩
  | cons x found ih =>
    rw [List.map_cons, List.forall_mem_cons] at hk
    obtain ⟨scopes, types, hfold, hscopes, htypes⟩ := ih (learnScope d shapes e x) hk.2
    have hfirst := learnScope_eq (d := d) (e := e) hk.1
    refine ⟨scopes, types, ?_, ?_, ?_⟩
    · rw [List.foldl_cons, hfold, hfirst, List.filterMap_cons]
      cases d.unknownContext? k x <;> simp
    · intro c
      rw [hscopes, hfirst, Table.get?_insert]
      exact ite_mem_cons x.1 (found.map (·.1)) (fun c => some (shapeOf shapes (scopeName c))) _
    · intro c
      rw [htypes, hfirst, Table.get?_insert]
      exact ite_mem_cons x.1 (found.map (·.1)) (fun c => some (shapeOf shapes (contextName c))) _

end Engine

end ViewLint
