import ViewLint.Binding.Payload
import ViewLint.Diagnostic.Suppression

/-!
# The tree of a view

A document holds the nodes of a view and its bindings in two flat stores.  A node is either a
place where the surrounding context is replaced, or an element with bindings.  Nodes and
bindings refer to each other by their numbers.

## Main definitions

* `Binding`, `TypeNode`, `BindingNode`, `Node` — what the stores hold.
* `Document` — the stores, with the imports, the handler names and the lint states of a view.
* `Document.addNode`, `Document.addBinding` — a document with one more node or binding.
-/

namespace ViewLint

/-- The number of a node. -/
abbrev NodeId : Type := Nat

/-- The number of a binding. -/
abbrev BindingId : Type := Nat

/-- A binding of a view. -/
structure Binding where
  id : BindingId
  handler : Ident
  expression : ExpressionText
  itemAlias : Option Alias
  /-- The node whose element the binding stands on. -/
  node : NodeId
  /-- The context-generating binding of the nearest enclosing element that has one. -/
  parent : Option BindingId
  children : List BindingId
  deriving DecidableEq, Repr, Inhabited

/-- The name of the value that holds the result of a binding. -/
def bindingName (id : BindingId) : String := "binding_" ++ Nat.repr id

/-- A place where the surrounding context is replaced. -/
structure TypeNode where
  type : Option TypeReference
  /-- Whether a view model is declared here, or else the context of a part of the view. -/
  isRoot : Bool
  location : Option Location
  deriving DecidableEq, Repr, Inhabited

/-- An element with bindings. -/
structure BindingNode where
  tag : String
  location : Location
  bindings : List BindingId
  isVirtual : Bool
  /-- Whether more than one declared handler stands on the element. -/
  conflicting : Bool
  deriving DecidableEq, Repr, Inhabited

/-- What a node is. -/
inductive NodeKind where
  | type (content : TypeNode)
  | binding (content : BindingNode)
  deriving DecidableEq, Repr, Inhabited

/-- A node with its place in the tree. -/
structure Node where
  id : NodeId
  parent : Option NodeId
  children : List NodeId
  kind : NodeKind
  deriving DecidableEq, Repr, Inhabited

/-- The element of a node, if it has one. -/
def Node.bindingNode? (n : Node) : Option BindingNode :=
  match n.kind with
  | .binding content => some content
  | .type _ => none

/-- The type of a node, if it is a place where the context is replaced. -/
def Node.typeNode? (n : Node) : Option TypeNode :=
  match n.kind with
  | .type content => some content
  | .binding _ => none

/-- The tree of a view. -/
structure Document where
  file : String
  dialect : Dialect
  text : String
  nodes : Array Node
  bindings : Array Binding
  imports : List Import
  /-- Every handler name that the view uses. -/
  handlerNames : NameSet
  timeline : Timeline
  deriving DecidableEq

namespace Document

/-- The number of the node that all others are below. -/
def root : NodeId := 0

/-- A view without elements or directives. -/
def empty (file : String) (dialect : Dialect) (text : String) : Document where
  file := file
  dialect := dialect
  text := text
  nodes := #[⟨root, none, [], .type ⟨none, true, none⟩⟩]
  bindings := #[]
  imports := []
  handlerNames := .empty
  timeline := .initial

/-- The document with one more node below a given one. -/
def addNode (d : Document) (parent : NodeId) (kind : NodeKind) : Document :=
  let id := d.nodes.size
  let node : Node := ⟨id, some parent, [], kind⟩
  { d with nodes := (d.nodes.push node).modify parent fun n =>
      { n with children := n.children ++ [id] } }

/-- The document with one more binding, which gets the next number. -/
def addBinding (d : Document) (b : ParsedBinding) (node : NodeId) (parent : Option BindingId) :
    Document :=
  let id := d.bindings.size
  let binding : Binding := ⟨id, b.handler, b.expression, b.itemAlias, node, parent, []⟩
  let bindings := d.bindings.push binding
  { d with
    bindings := match parent with
      | some p => bindings.modify p fun c => { c with children := c.children ++ [id] }
      | none => bindings
    handlerNames := d.handlerNames.insert b.handler.value }

/-- The document with another content of a node. -/
def setKind (d : Document) (id : NodeId) (f : NodeKind → NodeKind) : Document :=
  { d with nodes := d.nodes.modify id fun n => { n with kind := f n.kind } }

/-- The kind of a node. -/
def kind? (d : Document) (id : NodeId) : Option NodeKind := d.nodes[id]?.map (·.kind)

/-- The parent of a node. -/
def parent? (d : Document) (id : NodeId) : Option NodeId := d.nodes[id]?.bind (·.parent)

/-- The element of a node, if it has one. -/
def bindingNode? (d : Document) (id : NodeId) : Option BindingNode :=
  d.nodes[id]?.bind (·.bindingNode?)

/-- The numbers of the bindings on the element of a node. -/
def bindingsOf (d : Document) (id : NodeId) : List BindingId :=
  ((d.bindingNode? id).map (·.bindings)).getD []

/-- The type of the view model. -/
def viewmodel? (d : Document) : Option TypeReference :=
  d.nodes[root]?.bind (·.typeNode?) |>.bind (·.type)

/-- Whether a view imports a name. -/
def isImported (d : Document) (name : String) : Bool :=
  d.imports.any fun i => i.aliases.contains name

/-- The imported names that the view also uses as handlers. -/
def importedHandlers (d : Document) : NameSet :=
  .ofList ((d.imports.flatMap (·.aliases)).filter (decide <| · ∈ d.handlerNames))

end Document

end ViewLint
