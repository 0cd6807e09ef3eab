import ViewLint.Document.Tree

/-!
# Binding contexts

The contexts of a view form a forest.  A view model declaration makes a root; a directive or a
binding that changes the data in scope makes a child.  Contexts are numbered in the order in
which they are made.

## Main definitions

* `Context`, `Forest` — a context and all contexts of a view.
* `Forest.addRoot`, `Forest.addChild` — a forest with one more context.
* `Forest.ancestors` — the contexts around a context, nearest first.
* `Forest.isForest` — whether a walk from the roots meets every context once.
-/

namespace ViewLint

/-- The number of a context. -/
abbrev ContextId : Type := Nat

/-- The name of a context in code. -/
def contextName (id : ContextId) : String := "context_" ++ Nat.repr id

/-- What makes a context. -/
inductive Origin where
  /-- A declared view model. -/
  | root (node : NodeId)
  /-- A directive that declares the type in scope. -/
  | directive (node : NodeId)
  /-- A binding that changes the type in scope. -/
  | binding (id : BindingId)
  deriving DecidableEq, Repr, Inhabited

/-- A binding context. -/
structure Context where
  id : ContextId
  /-- The declared type as it is written in code. -/
  type : Option String
  parent : Option ContextId
  children : List ContextId
  origin : Origin
  deriving DecidableEq, Repr, Inhabited

/-- The contexts of a view. -/
structure Forest where
  contexts : Array Context
  roots : List ContextId
  deriving DecidableEq, Repr

namespace Forest

/-- No contexts. -/
def empty : Forest := ⟨#[], []⟩

instance : Inhabited Forest := ⟨empty⟩

/-- The number of contexts, which is the number that the next one gets. -/
def size (f : Forest) : Nat := f.contexts.size

/-- A context by its number. -/
def get? (f : Forest) (id : ContextId) : Option Context := f.contexts[id]?

/-- The context that a context is made inside of. -/
def parent? (f : Forest) (id : ContextId) : Option ContextId := (f.get? id).bind (·.parent)

/-- The forest with one more root. -/
def addRoot (f : Forest) (node : NodeId) (type : Option String) : Forest :=
  ⟨f.contexts.push ⟨f.size, type, none, [], .root node⟩, f.roots ++ [f.size]⟩

/-- The forest with one more child of a context. -/
def addChild (f : Forest) (parent : ContextId) (origin : Origin) (type : Option String) :
    Forest :=
  let contexts := f.contexts.push ⟨f.size, type, some parent, [], origin⟩
  { f with contexts := contexts.modify parent fun c =>
      { c with children := c.children ++ [f.size] } }

/-- The contexts around a context, nearest first, over at most `fuel` levels. -/
def ancestorsFrom (f : Forest) : Nat → ContextId → List ContextId
  | 0, _ => []
  | fuel + 1, id =>
    match f.parent? id with
    | some p => p :: f.ancestorsFrom fuel p
    | none => []

/-- The contexts around a context, nearest first. -/
def ancestors (f : Forest) (id : ContextId) : List ContextId := f.ancestorsFrom f.size id

/-- Walks on from the contexts of a stack, having met those in `seen`.  A context is met once
at most, and its children have to name it as their parent; at the end all have been met. -/
def walk (f : Forest) : Nat → List ContextId → List ContextId → Bool
  | _, [], seen => seen.length == f.size
  | 0, _ :: _, _ => false
  | fuel + 1, id :: stack, seen =>
    !seen.contains id &&
      match f.get? id with
      | some c =>
        c.children.all (fun k => f.parent? k == some id) &&
          f.walk fuel (c.children.reverse ++ stack) (id :: seen)
      | none => false

/-- Whether a walk from the roots meets every context exactly once, each below the context
that it names as its parent. -/
def isForest (f : Forest) : Bool :=
  f.roots.all (fun r => f.parent? r == none) && f.walk (f.size + 1) f.roots.reverse []

end Forest

end ViewLint
