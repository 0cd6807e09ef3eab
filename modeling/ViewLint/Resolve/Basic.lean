import ViewLint.Resolve.Engine

/-!
# Resolution

The contexts of a view are found in rounds.  A round takes the elements whose surroundings are
known, asks the type checker what is in scope there, and then what their bindings make of it.
A binding that changes the type in scope opens a context for the content of its element, so
that the next round can go one level deeper.

## Main definitions

* `Resolving` — a computation that asks a type checker and can fail.
* `round` — one round.
* `Resolved` — the outcome.
* `runResolve` — the outcome together with all that was learned on the way, failures included.
* `resolve` — the outcome alone.
-/

namespace ViewLint

variable {U : Type}

/-- A computation that asks a type checker.  What is known stays known when a call fails. -/
abbrev Resolving (U : Type) : Type → Type := ExceptT OracleError (StateM (Engine U))

namespace Resolving

/-- Answers with what a call has given. -/
def ofCall {α : Type} : Except OracleError α → Resolving U α
  | .ok a => pure a
  | .error failure => throw failure

/-- Commits the program and hands it to the type checker. -/
def compile (o : Oracle U) : Resolving U Unit := do
  let (source, previous) ← modifyGet Engine.commit
  let unit ← ofCall (o.compile source previous)
  modify fun e => { e with unit := some unit }

/-- The handle of the newest revision. -/
def currentUnit : Resolving U U := do
  let e ← get
  match e.unit with
  | some unit => return unit
  | none => throw (.unknownUnit e.probe.file)

/-- Asks for the types of named values. -/
def inspect (o : Oracle U) (names : List String) : Resolving U (List (String × Shape)) := do
  let unit ← currentUnit
  modify fun e => { e with calls := e.calls ++ [.inspect unit names] }
  ofCall (o.inspect unit names)

/-- Asks for the type errors. -/
def findings (o : Oracle U) : Resolving U (List Finding) := do
  let unit ← currentUnit
  modify fun e => { e with calls := e.calls ++ [.findings unit] }
  ofCall (o.findings unit)

end Resolving

open Resolving

/-- Asks what is in scope in the contexts of ready nodes that are new. -/
def probeScopes (o : Oracle U) (d : Document) (ready : List (NodeId × Assignment)) :
    Resolving U Unit := do
  let unseen := (← get).unseen ready
  if unseen.isEmpty then return ()
  else
    modify fun e => unseen.foldl (fun e found => e.declare (.scope found.1)) e
    compile o
    let shapes ← inspect o (unseen.flatMap fun found => [scopeName found.1, contextName found.1])
    modify fun e => unseen.foldl (Engine.learnScope d shapes) e

/-- Asks what the bindings of evaluated nodes make of the scope, and settles the nodes. -/
def probeBindings (o : Oracle U) (d : Document) (nodes : List (NodeId × ContextId)) :
    Resolving U Unit := do
  if nodes.isEmpty then return ()
  else
    compile o
    let shapes ← inspect o (nodes.flatMap fun node => (d.bindingsOf node.1).map bindingName)
    modify fun e => e.settle d shapes nodes

/-- One round over the unresolved nodes.  The answer is those that stay unresolved. -/
def round (o : Oracle U) (d : Document) (frontier : List NodeId) :
    Resolving U (List NodeId) := do
  modify fun e => { e with frontierSizes := e.frontierSizes ++ [frontier.length] }
  let ready ← modifyGet fun e => e.ready d frontier
  if ready.isEmpty then
    modify fun e => e.giveUp frontier
    return []
  else
    probeScopes o d ready
    let nodes ← modifyGet fun e => e.evaluate d ready
    probeBindings o d nodes
    return frontier.filter fun node => !ready.any (·.1 == node)

/-- Rounds until nothing is unresolved, at most `fuel` of them. -/
def rounds (o : Oracle U) (d : Document) : Nat → List NodeId → Resolving U Unit
  | _, [] => pure ()
  | 0, _ :: _ => pure ()
  | fuel + 1, frontier => do
    let rest ← round o d frontier
    rounds o d fuel rest

/-- What is known of a view in the end. -/
structure Resolved where
  contexts : Forest
  /-- What the bindings of each element are evaluated in. -/
  assignments : Table Assignment
  /-- What each element hands to its content. -/
  outgoing : Table Assignment
  probe : ProbeOutput
  /-- The number of unresolved elements at the start of each round. -/
  frontierSizes : List Nat
  /-- What the lint directives of the view let pass. -/
  diagnostics : List Diagnostic
  deriving DecidableEq

/-- The number of rounds. -/
def Resolved.iterations (r : Resolved) : Nat := r.frontierSizes.length

/-- What is known in the end, to the type errors of the whole program. -/
def conclude (o : Oracle U) (d : Document) : Resolving U Resolved := do
  if (← get).probe.hasPending then compile o
  let found ← findings o
  modify fun e => { e with diagnostics := e.diagnostics ++ found.filterMap (e.diagnostic? d) }
  let e ← get
  return ⟨e.contexts, e.assignments, e.outgoing, e.probe.finish, e.frontierSizes,
    e.diagnostics.filter d.timeline.allows⟩

/-- Resolves a view, whose elements with bindings are all unresolved at first.  Every round
resolves one of them at least. -/
def resolving (o : Oracle U) (d : Document) : Resolving U Resolved := do
  let frontier := d.bindingNodes
  rounds o d frontier.length frontier
  conclude o d

/-- The outcome for a view, or the failure of a call, together with all that was learned. -/
def runResolve (o : Oracle U) (d : Document) (typeLibrary : String) :
    Except OracleError Resolved × Engine U :=
  (resolving o d).run.run (.initial d typeLibrary)

/-- The outcome for a view, or the failure of a call. -/
def resolve (o : Oracle U) (d : Document) (typeLibrary : String) :
    Except OracleError Resolved :=
  (runResolve o d typeLibrary).1

end ViewLint
