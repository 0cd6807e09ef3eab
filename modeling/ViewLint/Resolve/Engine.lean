import ViewLint.Document.Walk
import ViewLint.Probe.Basic
import ViewLint.Table

/-!
# The state of a resolution

Resolution finds the binding context of every element with bindings.  This module holds what
is known at any point of it, and the steps that need no type checker.

## Main definitions

* `Assignment` — the context that something is evaluated in, if it is known.
* `Engine` — what is known so far.
* `Engine.outgoingOf` — the context that a node hands to its content.
* `Engine.ready` — the nodes whose surroundings are known.
* `Engine.settle` — what evaluated nodes hand to their content.
-/

namespace ViewLint

/-- The context that something is evaluated in. -/
inductive Assignment where
  | context (id : ContextId)
  /-- No context is known, and nothing is checked. -/
  | unknown
  deriving DecidableEq, Repr, Inhabited

/-- The context, if it is known. -/
def Assignment.context? : Assignment → Option ContextId
  | context id => some id
  | unknown => none

/-- What is known in the course of a resolution. -/
structure Engine (U : Type) where
  probe : Probe
  /-- The handle of the newest revision. -/
  unit : Option U
  contexts : Forest
  /-- What the nodes that replace the context hand to their content. -/
  typeContexts : Table Assignment
  /-- What the bindings of an element are evaluated in. -/
  assignments : Table Assignment
  /-- What an element hands to its content. -/
  outgoing : Table Assignment
  /-- What is in scope in a context. -/
  scopes : Table Shape
  /-- The types of the contexts themselves. -/
  contextTypes : Table Shape
  /-- What has been reported, in order. -/
  diagnostics : List Diagnostic
  /-- The number of unresolved elements at the start of each round. -/
  frontierSizes : List Nat
  /-- The requests to the type checker, in order. -/
  calls : List (Call U)
  deriving DecidableEq

namespace Engine

variable {U : Type}

/-- Reports a diagnostic. -/
def report (e : Engine U) (d : Document) (kind : Kind) (location : Option Location)
    (arguments : List String) : Engine U :=
  { e with diagnostics := e.diagnostics ++ [.ofKind kind d.file location arguments] }

/-- Declares something in the program. -/
def declare (e : Engine U) (content : Declaration) : Engine U :=
  { e with probe := e.probe.declare content }

/-- Fixes what a node that replaces the context hands to its content. -/
def setType (e : Engine U) (node : NodeId) (a : Assignment) : Assignment × Engine U :=
  (a, { e with typeContexts := e.typeContexts.insert node a })

/-- Opens the context of a view model. -/
def openRoot (e : Engine U) (node : NodeId) (type : TypeReference) : Assignment × Engine U :=
  let id := e.contexts.size
  let e := { e with contexts := e.contexts.addRoot node (some type.text) }
  (e.declare (.root id type)).setType node (.context id)

/-- Opens a context of a declared type inside another one. -/
def openDirective (e : Engine U) (node : NodeId) (type : TypeReference) (parent : ContextId) :
    Assignment × Engine U :=
  let id := e.contexts.size
  let e := { e with contexts := e.contexts.addChild parent (.directive node) (some type.text) }
  (e.declare (.directive id type parent)).setType node (.context id)

/-- What is known before the first round. -/
def initial (d : Document) (typeLibrary : String) : Engine U :=
  let probe := (Probe.initial d.file typeLibrary).emitImports d.imports
  let probe := probe.emitHandlers d.importedHandlers.toList
  let e : Engine U :=
    ⟨probe, none, .empty, .empty, .empty, .empty, .empty, .empty, [], [], []⟩
  (match d.viewmodel? with
    | some type => e.openRoot Document.root type
    | none => e.setType Document.root .unknown).2

/-- Commits the program.  The answer is the new revision, and the handle of the one before,
which the type checker gets back with it. -/
def commit (e : Engine U) : (SourceUnit × Option U) × Engine U :=
  let (source, probe) := e.probe.commit
  ((source, e.unit),
    { e with probe, unit := none, calls := e.calls ++ [.compile source e.unit] })

/-! ### The context that a node hands to its content -/

/-- What a node hands to its content, if that is known, looking at most `fuel` levels up.  The
first look at a node that replaces the context opens its context. -/
def outgoingFrom (d : Document) : Nat → NodeId → Engine U → Option Assignment × Engine U
  | 0, _, e => (none, e)
  | fuel + 1, node, e =>
    match d.nodes[node]? with
    | none => (none, e)
    | some n =>
      match n.kind with
      | .binding _ => (e.outgoing.get? node, e)
      | .type content =>
        match e.typeContexts.get? node with
        | some a => (some a, e)
        | none =>
          match content.type with
          | none => (e.setType node .unknown).map some id
          | some type =>
            if content.isRoot then (e.openRoot node type).map some id
            else
              match n.parent with
              | none => (e.setType node .unknown).map some id
              | some p =>
                match outgoingFrom d fuel p e with
                | (none, e) => (none, e)
                | (some .unknown, e) => (e.setType node .unknown).map some id
                | (some (.context parent), e) =>
                  (e.openDirective node type parent).map some id

/-- What a node hands to its content, if that is known. -/
def outgoingOf (e : Engine U) (d : Document) (node : NodeId) : Option Assignment × Engine U :=
  outgoingFrom d d.nodes.size node e

/-- The nodes of a list whose surroundings are known, with the context around them. -/
def ready (e : Engine U) (d : Document) : List NodeId → List (NodeId × Assignment) × Engine U
  | [] => ([], e)
  | node :: nodes =>
    match d.parent? node with
    | none => e.ready d nodes
    | some p =>
      match e.outgoingOf d p with
      | (none, e) => e.ready d nodes
      | (some a, e) =>
        let (found, e) := e.ready d nodes
        ((node, a) :: found, e)

/-! ### Scopes -/

/-- The contexts of ready nodes whose scope has not been looked at, each with the first node
in it. -/
def unseen (e : Engine U) (ready : List (NodeId × Assignment)) : List (ContextId × NodeId) :=
  ready.foldl
    (fun found (node, a) =>
      match a with
      | .unknown => found
      | .context id =>
        if (e.scopes.get? id).isSome || found.any (·.1 == id) then found
        else found ++ [(id, node)])
    []

/-- Keeps what is known about a context, and reports it if nothing is in scope. -/
def learnScope (d : Document) (shapes : List (String × Shape)) (e : Engine U)
    (found : ContextId × NodeId) : Engine U :=
  let (id, node) := found
  let scope := shapeOf shapes (scopeName id)
  let e :=
    if scope.isDynamic then
      e.report d .contextUnknown ((d.bindingNode? node).map (·.location)) []
    else e
  { e with
    scopes := e.scopes.insert id scope
    contextTypes := e.contextTypes.insert id (shapeOf shapes (contextName id)) }

/-! ### Evaluation -/

/-- The members in scope of an assignment.  There are none to be known in an unknown context,
or where the type checker knows nothing. -/
def scopeOf? (e : Engine U) (a : Assignment) : Option (ContextId × List String) :=
  match a with
  | .unknown => none
  | .context id =>
    match e.scopes.get? id with
    | some (.known _ members) => some (id, members)
    | _ => none

/-- Declares the values of the bindings of a node. -/
def declareBindings (e : Engine U) (d : Document) (node : NodeId) (context : ContextId)
    (members : List String) : Engine U :=
  (d.bindingsOf node).foldl
    (fun e b =>
      match d.bindings[b]? with
      | some binding => e.declare (.transformation binding context members)
      | none => e)
    e

/-- Assigns ready nodes, and declares the values of their bindings where the scope is known.
The answer is the nodes for which it is. -/
def evaluate (e : Engine U) (d : Document) :
    List (NodeId × Assignment) → List (NodeId × ContextId) × Engine U
  | [] => ([], e)
  | (node, a) :: ready =>
    let e := { e with assignments := e.assignments.insert node a }
    match e.scopeOf? a with
    | none => { e with outgoing := e.outgoing.insert node .unknown }.evaluate d ready
    | some (context, members) =>
      let (nodes, e) := (e.declareBindings d node context members).evaluate d ready
      ((node, context) :: nodes, e)

/-! ### Child contexts -/

/-- Looks at the value of a binding.  The answer is whether it changes the type in scope from
the given one; a value of which nothing is known is reported. -/
def changesType (e : Engine U) (d : Document) (shapes : List (String × Shape))
    (parent : Option String) (b : Binding) : Bool × Engine U :=
  if b.itemAlias = some .undeterminable then
    (false, e.report d .unknownScope (some b.handler.location) [b.handler.value])
  else
    match (shapeOf shapes (bindingName b.id)).typeId? with
    | none => (false, e.report d .bindingUnknown (some b.handler.location) [b.handler.value])
    | some id => (decide (some id ≠ parent), e)

/-- The bindings that change the type in scope. -/
def candidates (e : Engine U) (d : Document) (shapes : List (String × Shape))
    (parent : Option String) : List Binding → List Binding × Engine U
  | [] => ([], e)
  | b :: bs =>
    match e.changesType d shapes parent b with
    | (changes, e) =>
      let (found, e) := e.candidates d shapes parent bs
      (if changes then b :: found else found, e)

/-- Opens the context that a binding makes inside another one. -/
def openBinding (e : Engine U) (parent : ContextId) (b : Binding) (type : Shape) :
    Assignment × Engine U :=
  let id := e.contexts.size
  let e := { e with contexts := e.contexts.addChild parent (.binding b.id) none }
  let e := e.declare (.bindingContext id b.id)
  (.context id, { e with contextTypes := e.contextTypes.insert id type })

/-- What an evaluated node hands to its content: a context of its own if exactly one of its
bindings changes the type in scope, and else the context around it. -/
def childContext (e : Engine U) (d : Document) (shapes : List (String × Shape))
    (node : NodeId) (context : ContextId) : Assignment × Engine U :=
  match d.bindingNode? node with
  | none => (.context context, e)
  | some content =>
    let parent := (e.contextTypes.get? context).bind (·.typeId?)
    let bindings := content.bindings.filterMap (d.bindings[·]?)
    match e.candidates d shapes parent bindings with
    | (found, e) =>
      if content.conflicting then (.context context, e)
      else
        match found with
        | [] => (.context context, e)
        | [b] => e.openBinding context b (shapeOf shapes (bindingName b.id))
        | _ =>
          (.context context, e.report d .multipleGeneratingBindings (some content.location) [])

/-- Fixes what evaluated nodes hand to their content. -/
def settle (e : Engine U) (d : Document) (shapes : List (String × Shape)) :
    List (NodeId × ContextId) → Engine U
  | [] => e
  | (node, context) :: nodes =>
    let (a, e) := e.childContext d shapes node context
    { e with outgoing := e.outgoing.insert node a }.settle d shapes nodes

/-- Leaves nodes without a known context. -/
def giveUp (e : Engine U) : List NodeId → Engine U
  | [] => e
  | node :: nodes =>
    { e with
      assignments := e.assignments.insert node .unknown
      outgoing := e.outgoing.insert node .unknown }.giveUp nodes

/-! ### Findings -/

/-- The place in the markup of a finding in the program.  The length of a finding can be any
word, and is added as one. -/
def locate (e : Engine U) (d : Document) (f : Finding) : Option Location := do
  let place ← e.probe.translate f.start
  guard (e.probe.merged.sources[place.source]? = some d.file)
  let size := d.text.utf8ByteSize
  let start := min place.offset size
  let stop := if place.exact then min (offsetBehind size start f.length) size else start
  return .ofRange d.text.toList start stop

/-- The diagnostic of a finding.  There is none for a finding outside the program. -/
def diagnostic? (e : Engine U) (d : Document) (f : Finding) : Option Diagnostic :=
  if f.file = e.probe.file then
    some (.ofFinding d.file f.code f.message f.severity (e.locate d f))
  else none

end Engine

end ViewLint
