import ViewLint.Document.Tree

/-!
# Walking a document

The nodes and bindings of a document in the order in which they stand in the view.

## Main definitions

* `Visit` — what a walk meets.
* `Document.walk` — everything met from the root on, without the content of pruned nodes.
* `Document.bindingNodes` — the elements with bindings, in document order.
* `Document.bindingDepth` — how many elements with bindings enclose a node, itself included.
-/

namespace ViewLint

/-- What a walk meets. -/
inductive Visit where
  /-- A node that is not entered. -/
  | pruned (id : NodeId)
  /-- A place where the context is replaced. -/
  | type (id : NodeId) (isRoot : Bool)
  /-- An element with bindings. -/
  | node (id : NodeId) (tag : String)
  /-- A binding of the element met before it. -/
  | binding (id : BindingId) (handler : String)
  deriving DecidableEq, Repr

namespace Document

/-- What a node shows by itself. -/
def visitsOf (d : Document) (n : Node) : List Visit :=
  match n.kind with
  | .type content => [.type n.id content.isRoot]
  | .binding content =>
    .node n.id content.tag ::
      (content.bindings.filterMap fun b => d.bindings[b]?).map fun b =>
        .binding b.id b.handler.value

/-- What a walk meets from a node on, down to `fuel` levels. -/
def walkFrom (d : Document) (isPruned : NodeId → Bool) : Nat → NodeId → List Visit
  | 0, _ => []
  | fuel + 1, id =>
    match d.nodes[id]? with
    | none => []
    | some n =>
      if isPruned id then [.pruned id]
      else d.visitsOf n ++ n.children.flatMap (d.walkFrom isPruned fuel)

/-- What a walk from the root meets.  No path is longer than there are nodes. -/
def walk (d : Document) (isPruned : NodeId → Bool) : List Visit :=
  d.walkFrom isPruned d.nodes.size root

/-- The elements with bindings, in document order. -/
def bindingNodes (d : Document) : List NodeId :=
  (d.walk fun _ => false).filterMap fun
    | .node id _ => some id
    | _ => none

/-- The number of bindings that a walk meets. -/
def bindingCount (d : Document) : Nat :=
  (d.walk fun _ => false).countP fun
    | .binding _ _ => true
    | _ => false

/-- The elements with bindings on the way from a node up to the root, over at most `fuel`
levels. -/
def depthFrom (d : Document) : Nat → NodeId → Nat
  | 0, _ => 0
  | fuel + 1, id =>
    let own := if (d.bindingNode? id).isSome then 1 else 0
    match d.parent? id with
    | some p => own + d.depthFrom fuel p
    | none => own

/-- The number of elements with bindings that enclose a node, itself included. -/
def bindingDepth (d : Document) (id : NodeId) : Nat := d.depthFrom d.nodes.size id

end Document

end ViewLint
