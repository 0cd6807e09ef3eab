import Mathlib.Logic.Function.Basic
import ViewLint.Proofs.Resolve.Outcome

/-!
# Renaming types

A type checker names the types that it finds, and resolution compares the names and does nothing
else with them.  So another naming of the same types leads to the same requests and to the same
outcome.  The two resolutions go side by side: their states differ in the names of the types that
have been learned, and nowhere else.

## Main definitions

* `Shape.rename`, `Oracle.rename`, `Engine.rename` — the names of types changed in a shape, in all
  answers of a type checker and in all that has been learned.
* `Resolving.Follows` — a computation that does under new names what another one does.

## Main results

* `Engine.changesType_rename` — whether a binding changes the type in scope does not depend on the
  names.
* `follows_round`, `follows_resolving` — one round and all rounds under new names.
* `resolve_rename` — the outcome does not depend on the names.
-/

namespace ViewLint

variable {U α β γ : Type}

/-! ### Names in shapes and tables -/

namespace Table

/-- The table with other values at its keys. -/
def map (g : α → β) (t : Table α) : Table β := ⟨t.entries.map fun entry => (entry.1, g entry.2)⟩

theorem lookup_map_snd {κ : Type} [BEq κ] (g : α → β) (k : κ) (entries : List (κ × α)) :
    (entries.map fun entry => (entry.1, g entry.2)).lookup k = (entries.lookup k).map g := by
  induction entries with
  | nil => rfl
  | cons entry entries ih =>
    rw [List.map_cons, List.lookup_cons, List.lookup_cons, ih]
    cases k == entry.1 <;> rfl

theorem get?_map (g : α → β) (t : Table α) (k : Nat) : (t.map g).get? k = (t.get? k).map g :=
  lookup_map_snd g k t.entries

theorem insertEntry_map (g : α → β) (k : Nat) (v : α) (entries : List (Nat × α)) :
    insertEntry k (g v) (entries.map fun entry => (entry.1, g entry.2)) =
      (insertEntry k v entries).map fun entry => (entry.1, g entry.2) := by
  induction entries with
  | nil => rfl
  | cons entry entries ih =>
    obtain ⟨j, w⟩ := entry
    rw [List.map_cons, insertEntry, insertEntry, ih]
    split
    · rfl
    · split <;> rfl

theorem map_insert (g : α → β) (t : Table α) (k : Nat) (v : α) :
    (t.insert k v).map g = (t.map g).insert k (g v) :=
  congrArg Table.mk (insertEntry_map g k v t.entries).symm

end Table

namespace Shape

/-- The shape with another name for its type. -/
def rename (f : String → String) : Shape → Shape
  | known id members => known (f id) members
  | dynamic => dynamic

theorem typeId?_rename (f : String → String) (s : Shape) :
    (s.rename f).typeId? = s.typeId?.map f := by
  cases s <;> rfl

theorem isDynamic_rename (f : String → String) (s : Shape) :
    (s.rename f).isDynamic = s.isDynamic := by
  cases s <;> rfl

/-- An answer with other names for all types. -/
def renameAll (f : String → String) (shapes : List (String × Shape)) : List (String × Shape) :=
  shapes.map fun found => (found.1, found.2.rename f)

theorem shapeOf_renameAll (f : String → String) (shapes : List (String × Shape)) (name : String) :
    shapeOf (renameAll f shapes) name = (shapeOf shapes name).rename f := by
  rw [shapeOf, shapeOf, renameAll, Table.lookup_map_snd]
  cases shapes.lookup name <;> rfl

end Shape

/-- The type checker that has other names for all types, and else gives the same answers. -/
def Oracle.rename (f : String → String) (o : Oracle U) : Oracle U :=
  { o with inspect := fun unit names => (o.inspect unit names).map (Shape.renameAll f) }

/-! ### Steps under new names -/

namespace Engine

/-- The state in which types that have been learned have other names. -/
def rename (f : String → String) (e : Engine U) : Engine U :=
  { e with
    scopes := e.scopes.map (Shape.rename f)
    contextTypes := e.contextTypes.map (Shape.rename f) }

variable (f : String → String) (d : Document)

theorem initial_rename (typeLibrary : String) :
    (initial d typeLibrary : Engine U).rename f = initial d typeLibrary := by
  rw [initial]
  cases d.viewmodel? <;> rfl

theorem outgoingFrom_rename (fuel : Nat) (node : NodeId) (e : Engine U) :
    outgoingFrom d fuel node (e.rename f) =
      Prod.map id (rename f) (outgoingFrom d fuel node e) := by
  induction fuel generalizing node e with
  | zero => rfl
  | succ fuel ih =>
    rw [outgoingFrom, outgoingFrom]
    split
    · rfl
    · split
      · rfl
      · have htypes : (e.rename f).typeContexts = e.typeContexts := rfl
        rw [htypes]
        split
        · rfl
        · split
          · rfl
          · split
            · rfl
            · split
              · rfl
              · -- what is around the node is looked at under new names as well
                rw [ih]
                cases outgoingFrom d fuel _ e with
                | mk a e' =>
                  cases a with
                  | none => rfl
                  | some a => cases a <;> rfl

theorem ready_rename (frontier : List NodeId) (e : Engine U) :
    (e.rename f).ready d frontier = Prod.map id (rename f) (e.ready d frontier) := by
  induction frontier generalizing e with
  | nil => rfl
  | cons node nodes ih =>
    rw [ready, ready]
    cases d.parent? node with
    | none => exact ih e
    | some p =>
      dsimp only [outgoingOf]
      rw [outgoingFrom_rename]
      cases outgoingFrom d d.nodes.size p e with
      | mk a e' =>
        cases a with
        | none => exact ih e'
        | some a =>
          dsimp only [Prod.map, id]
          rw [ih]
          rfl

theorem unseen_rename (ready : List (NodeId × Assignment)) (e : Engine U) :
    (e.rename f).unseen ready = e.unseen ready := by
  have hseen : ∀ id, ((e.rename f).scopes.get? id).isSome = (e.scopes.get? id).isSome := by
    intro id
    rw [rename, Table.get?_map, Option.isSome_map]
  rw [unseen, unseen]
  simp only [hseen]

theorem learnScope_rename (shapes : List (String × Shape)) (found : ContextId × NodeId)
    (e : Engine U) :
    learnScope d (Shape.renameAll f shapes) (e.rename f) found =
      (learnScope d shapes e found).rename f := by
  dsimp only [learnScope]
  rw [Shape.shapeOf_renameAll, Shape.shapeOf_renameAll, Shape.isDynamic_rename]
  cases (shapeOf shapes (scopeName found.1)).isDynamic <;>
    simp only [rename, report, Table.map_insert, Bool.false_eq_true, if_false, if_true]

/-- The members in scope are the same under new names. -/
theorem scopeOf?_rename (a : Assignment) (e : Engine U) :
    (e.rename f).scopeOf? a = e.scopeOf? a := by
  cases a with
  | unknown => rfl
  | context id =>
    dsimp only [scopeOf?, rename]
    rw [Table.get?_map]
    cases e.scopes.get? id with
    | none => rfl
    | some s => cases s <;> rfl

/-- Steps that commute with renaming do so one after the other. -/
theorem foldl_rename {g g' : Engine U → α → Engine U}
    (h : ∀ e x, g' (e.rename f) x = (g e x).rename f) (xs : List α) (e : Engine U) :
    xs.foldl g' (e.rename f) = (xs.foldl g e).rename f := by
  induction xs generalizing e with
  | nil => rfl
  | cons x xs ih => rw [List.foldl_cons, List.foldl_cons, h, ih]

theorem declareBindings_rename (node : NodeId) (context : ContextId) (members : List String)
    (e : Engine U) :
    (e.rename f).declareBindings d node context members =
      (e.declareBindings d node context members).rename f := by
  refine foldl_rename f ?_ (d.bindingsOf node) e
  intro e b
  cases d.bindings[b]? <;> rfl

theorem evaluate_rename (ready : List (NodeId × Assignment)) (e : Engine U) :
    (e.rename f).evaluate d ready = Prod.map id (rename f) (e.evaluate d ready) := by
  induction ready generalizing e with
  | nil => rfl
  | cons found ready ih =>
    obtain ⟨node, a⟩ := found
    have hscope : ({ e.rename f with
        assignments := (e.rename f).assignments.insert node a }).scopeOf? a =
          { e with assignments := e.assignments.insert node a }.scopeOf? a :=
      scopeOf?_rename f a { e with assignments := e.assignments.insert node a }
    rw [evaluate, evaluate]
    dsimp only
    rw [hscope]
    cases { e with assignments := e.assignments.insert node a }.scopeOf? a with
    | none =>
      exact ih { e with
        assignments := e.assignments.insert node a
        outgoing := e.outgoing.insert node .unknown }
    | some found =>
      have hdeclared := declareBindings_rename f d node found.1 found.2
        { e with assignments := e.assignments.insert node a }
      have hrest := ih ({ e with
        assignments := e.assignments.insert node a }.declareBindings d node found.1 found.2)
      rw [← hdeclared] at hrest
      exact congrArg (fun x => ((node, found.1) :: x.1, x.2)) hrest

/-! ### Comparing types -/

variable {f}

/-- Whether a binding changes the type in scope does not depend on the names of types. -/
theorem changesType_rename (hf : Function.Injective f) (shapes : List (String × Shape))
    (parent : Option String) (b : Binding) (e : Engine U) :
    (e.rename f).changesType d (Shape.renameAll f shapes) (parent.map f) b =
      Prod.map id (rename f) (e.changesType d shapes parent b) := by
  rw [changesType, changesType, Shape.shapeOf_renameAll, Shape.typeId?_rename]
  split
  · rfl
  · cases (shapeOf shapes (bindingName b.id)).typeId? with
    | none => rfl
    | some id =>
      have hiff : some (f id) ≠ parent.map f ↔ some id ≠ parent :=
        not_congr ((Option.map_injective hf).eq_iff (a := some id) (b := parent))
      dsimp only [Option.map_some, Prod.map]
      rw [decide_eq_decide.mpr hiff]
      rfl

theorem candidates_rename (hf : Function.Injective f) (shapes : List (String × Shape))
    (parent : Option String) (bs : List Binding) (e : Engine U) :
    (e.rename f).candidates d (Shape.renameAll f shapes) (parent.map f) bs =
      Prod.map id (rename f) (e.candidates d shapes parent bs) := by
  induction bs generalizing e with
  | nil => rfl
  | cons b bs ih =>
    rw [candidates, candidates, changesType_rename d hf]
    cases e.changesType d shapes parent b with
    | mk changes e' =>
      dsimp only [Prod.map]
      rw [ih]
      rfl

theorem openBinding_rename (parent : ContextId) (b : Binding) (type : Shape) (e : Engine U) :
    (e.rename f).openBinding parent b (type.rename f) =
      Prod.map id (rename f) (e.openBinding parent b type) := by
  simp only [openBinding, rename, declare, Table.map_insert, Prod.map, id]

theorem childContext_rename (hf : Function.Injective f) (shapes : List (String × Shape))
    (node : NodeId) (context : ContextId) (e : Engine U) :
    (e.rename f).childContext d (Shape.renameAll f shapes) node context =
      Prod.map id (rename f) (e.childContext d shapes node context) := by
  have hparent : ((e.rename f).contextTypes.get? context).bind (·.typeId?) =
      ((e.contextTypes.get? context).bind (·.typeId?)).map f := by
    dsimp only [rename]
    rw [Table.get?_map]
    cases e.contextTypes.get? context with
    | none => rfl
    | some type => exact type.typeId?_rename f
  rw [childContext, childContext]
  cases d.bindingNode? node with
  | none => rfl
  | some content =>
    dsimp only
    rw [hparent, candidates_rename d hf]
    cases e.candidates d shapes _ (content.bindings.filterMap (d.bindings[·]?)) with
    | mk found e' =>
      dsimp only [Prod.map, id]
      split
      · rfl
      · split
        · rfl
        · rw [Shape.shapeOf_renameAll]
          exact openBinding_rename ..
        · rfl

theorem settle_rename (hf : Function.Injective f) (shapes : List (String × Shape))
    (nodes : List (NodeId × ContextId)) (e : Engine U) :
    (e.rename f).settle d (Shape.renameAll f shapes) nodes =
      (e.settle d shapes nodes).rename f := by
  induction nodes generalizing e with
  | nil => rfl
  | cons found nodes ih =>
    obtain ⟨node, context⟩ := found
    rw [settle, settle, childContext_rename d hf]
    cases e.childContext d shapes node context with
    | mk a e' => exact ih { e' with outgoing := e'.outgoing.insert node a }

theorem giveUp_rename (frontier : List NodeId) (e : Engine U) :
    (e.rename f).giveUp frontier = (e.giveUp frontier).rename f := by
  induction frontier generalizing e with
  | nil => rfl
  | cons node nodes ih =>
    exact ih { e with
      assignments := e.assignments.insert node .unknown
      outgoing := e.outgoing.insert node .unknown }

end Engine

/-! ### Computations under new names -/

namespace Resolving

/-- From a state under new names, `m'` comes to the answer of `m` under `r`, or to the same failure,
and it leaves the state that `m` leaves, under new names. -/
def Follows (f : String → String) (r : α → β) (m : Resolving U α) (m' : Resolving U β) : Prop :=
  ∀ e, m'.run.run (e.rename f) = ((m.run.run e).1.map r, (m.run.run e).2.rename f)

variable {f : String → String} {r : α → β}

theorem follows_pure (a : α) : Follows f r (pure a : Resolving U α) (pure (r a)) := fun _ => rfl

theorem Follows.bind {δ : Type} {s : γ → δ} {m : Resolving U α} {m' : Resolving U β}
    {k : α → Resolving U γ} {k' : β → Resolving U δ} (h : Follows f r m m')
    (hk : ∀ a, Follows f s (k a) (k' (r a))) : Follows f s (m >>= k) (m' >>= k') := by
  intro e
  simp only [ExceptT.run_bind, StateT.run_bind]
  rw [h e]
  cases m.run.run e with
  | mk result e' =>
    cases result with
    | ok a => exact hk a e'
    | error failure => rfl

theorem follows_get : Follows f (Engine.rename f) (get : Resolving U (Engine U)) get := fun _ => rfl

theorem follows_modify {g g' : Engine U → Engine U} (h : ∀ e, g' (e.rename f) = (g e).rename f) :
    Follows f id (modify g : Resolving U PUnit) (modify g') := by
  intro e
  exact congrArg (Prod.mk (Except.ok PUnit.unit)) (h e)

theorem follows_modifyGet {g : Engine U → α × Engine U} {g' : Engine U → α × Engine U}
    (h : ∀ e, g' (e.rename f) = Prod.map id (Engine.rename f) (g e)) :
    Follows f id (modifyGet g : Resolving U α) (modifyGet g') := by
  intro e
  exact congrArg (fun x => (Except.ok x.1, x.2)) (h e)

theorem follows_ofCall (result : Except OracleError α) :
    Follows f r (ofCall result : Resolving U α) (ofCall (result.map r)) := by
  intro e
  cases result <;> rfl

/-! ### Requests -/

variable (o : Oracle U)

theorem follows_compile : Follows f id (compile o) (compile (o.rename f)) := by
  refine Follows.bind (follows_modifyGet fun _ => rfl) ?_
  rintro ⟨source, previous⟩
  refine Follows.bind (r := id) ?_ fun unit => follows_modify fun _ => rfl
  intro e
  cases h : o.compile source previous <;> simp only [Oracle.rename, h] <;> rfl

theorem follows_currentUnit : Follows f id (currentUnit : Resolving U U) currentUnit := by
  refine Follows.bind follows_get ?_
  intro e
  dsimp only [Engine.rename]
  cases e.unit with
  | none => exact fun _ => rfl
  | some unit => exact follows_pure unit

theorem follows_inspect (names : List String) :
    Follows f (Shape.renameAll f) (inspect o names) (inspect (o.rename f) names) := by
  refine Follows.bind follows_currentUnit fun unit => ?_
  refine Follows.bind (follows_modify fun _ => rfl) fun _ => ?_
  exact follows_ofCall (o.inspect unit names)

theorem follows_findings : Follows f id (findings o) (findings (o.rename f)) := by
  refine Follows.bind follows_currentUnit fun unit => ?_
  refine Follows.bind (follows_modify fun _ => rfl) fun _ => ?_
  intro e
  cases h : o.findings unit <;> simp only [id, Oracle.rename, h] <;> rfl

end Resolving

open Resolving

variable {f : String → String} (o : Oracle U) (d : Document)

/-! ### Rounds -/

theorem follows_probeScopes (ready : List (NodeId × Assignment)) :
    Follows f id (probeScopes o d ready) (probeScopes (o.rename f) d ready) := by
  refine Follows.bind follows_get fun e => ?_
  rw [Engine.unseen_rename]
  dsimp only
  split
  · exact follows_pure ()
  · refine Follows.bind (follows_modify (Engine.foldl_rename f (fun _ _ => rfl) _)) fun _ => ?_
    refine Follows.bind (follows_compile o) fun _ => ?_
    refine Follows.bind (follows_inspect o _) fun shapes => ?_
    exact follows_modify
      (Engine.foldl_rename f (fun e found => Engine.learnScope_rename f d shapes found e) _)

theorem follows_probeBindings (hf : Function.Injective f) (nodes : List (NodeId × ContextId)) :
    Follows f id (probeBindings o d nodes) (probeBindings (o.rename f) d nodes) := by
  rw [probeBindings, probeBindings]
  split
  · exact follows_pure ()
  · refine Follows.bind (follows_compile o) fun _ => ?_
    refine Follows.bind (follows_inspect o _) fun shapes => ?_
    exact follows_modify (Engine.settle_rename d hf shapes nodes)

theorem follows_round (hf : Function.Injective f) (frontier : List NodeId) :
    Follows f id (round o d frontier) (round (o.rename f) d frontier) := by
  refine Follows.bind (follows_modify fun _ => rfl) fun _ => ?_
  refine Follows.bind (follows_modifyGet (Engine.ready_rename f d frontier)) fun ready => ?_
  dsimp only [id]
  split
  · refine Follows.bind (follows_modify (Engine.giveUp_rename frontier)) fun _ => ?_
    exact follows_pure []
  · refine Follows.bind (follows_probeScopes o d ready) fun _ => ?_
    refine Follows.bind (follows_modifyGet (Engine.evaluate_rename f d ready)) fun nodes => ?_
    refine Follows.bind (follows_probeBindings o d hf nodes) fun _ => ?_
    exact follows_pure (frontier.filter fun node => !ready.any (·.1 == node))

theorem follows_rounds (hf : Function.Injective f) (fuel : Nat) (frontier : List NodeId) :
    Follows f id (rounds o d fuel frontier) (rounds (o.rename f) d fuel frontier) := by
  induction fuel generalizing frontier with
  | zero => cases frontier <;> exact follows_pure ()
  | succ fuel ih =>
    cases frontier with
    | nil => exact follows_pure ()
    | cons node nodes => exact Follows.bind (follows_round o d hf (node :: nodes)) ih

theorem follows_conclude : Follows f id (conclude o d) (conclude (o.rename f) d) := by
  refine Follows.bind follows_get fun e => ?_
  have hprobe : (e.rename f).probe = e.probe := rfl
  dsimp only
  rw [hprobe]
  -- the program is compiled first if it has changed, and then the type errors are asked for
  split
  · refine Follows.bind (follows_compile o) fun _ => ?_
    refine Follows.bind (follows_findings o) fun found => ?_
    refine Follows.bind (follows_modify fun _ => rfl) fun _ => ?_
    exact Follows.bind follows_get fun e => follows_pure _
  · refine Follows.bind (follows_findings o) fun found => ?_
    refine Follows.bind (follows_modify fun _ => rfl) fun _ => ?_
    exact Follows.bind follows_get fun e => follows_pure _

theorem follows_resolving (hf : Function.Injective f) :
    Follows f id (resolving o d) (resolving (o.rename f) d) :=
  Follows.bind (follows_rounds o d hf _ d.bindingNodes) fun _ => follows_conclude o d

/-- **Only the equality of types matters.**  If a type checker has other names for the types, and
different names for different types, resolution makes the same requests and comes to the same
outcome or failure. -/
theorem resolve_rename {f : String → String} (hf : Function.Injective f) (o : Oracle U)
    (d : Document) (typeLibrary : String) :
    (runResolve (o.rename f) d typeLibrary).2.calls = (runResolve o d typeLibrary).2.calls ∧
      resolve (o.rename f) d typeLibrary = resolve o d typeLibrary := by
  have hrun : runResolve (o.rename f) d typeLibrary =
      ((runResolve o d typeLibrary).1.map id, (runResolve o d typeLibrary).2.rename f) := by
    have hfollows := follows_resolving o d hf (.initial d typeLibrary)
    rw [Engine.initial_rename] at hfollows
    exact hfollows
  rw [resolve, resolve, hrun]
  refine ⟨rfl, ?_⟩
  cases (runResolve o d typeLibrary).1 <;> rfl

/-- Every type gets a name that begins with the same word. -/
def prefixed (id : String) : String := "type " ++ id

theorem resolve_rename_nestedView :
    Function.Injective prefixed ∧ ∃ d,
      (build "view.html" "" nestedView ⟨.empty, .empty⟩).document = some d ∧
      (runResolve lavishOracle d "lib").2.contexts.size = 4 ∧
      (lavishOracle.rename prefixed).inspect 0 ["a"] = .ok [("a", .known "type a" [])] ∧
      (runResolve (lavishOracle.rename prefixed) d "lib").2.calls =
        (runResolve lavishOracle d "lib").2.calls ∧
      resolve (lavishOracle.rename prefixed) d "lib" = resolve lavishOracle d "lib" := by
  have hf : Function.Injective prefixed := by
    intro a b hab
    exact String.append_right_inj _ |>.mp hab
  have hbuilt : ((build "view.html" "" nestedView ⟨.empty, .empty⟩).document.map fun d =>
      (runResolve lavishOracle d "lib").2.contexts.size) = some 4 := by
    decide +kernel
  obtain ⟨d, hd, hsize⟩ := Option.map_eq_some_iff.mp hbuilt
  exact ⟨hf, d, hd, hsize, by decide, resolve_rename hf lavishOracle d "lib"⟩

end ViewLint
