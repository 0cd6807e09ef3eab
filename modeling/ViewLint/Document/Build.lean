import ViewLint.Binding.Handlers
import ViewLint.Document.Tree
import ViewLint.Markup.Tokenize

/-!
# Building a document

The tokens of a view are read element by element.  The content of an element is read by one
call, which knows the node that is active inside the element and the tag that has to close
it; so the tags are balanced exactly if every call finds its end tag.  Directives act where
they stand: the context that one declares stays active in the rest of the enclosing element.

## Main definitions

* `Builder` — a document under construction, with what has been reported so far.
* `Builder.directive`, `Builder.element` — the effect of one token.
* `children` — the content of one element.
* `build` — the document of a view, with its diagnostics.
-/

namespace ViewLint

open Markup

variable [ScriptParser]

/-- The deepest nesting of elements. -/
def maxNesting : Nat := 1000

/-- Why the elements of a view make no tree. -/
inductive Incomplete where
  /-- An end tag without its start tag, or the reverse, at the given place. -/
  | unbalanced (location : Location)
  /-- A start tag inside too many elements. -/
  | tooDeep (element : Element)
  deriving DecidableEq, Repr

/-- A document under construction. -/
structure Builder where
  document : Document
  /-- What has been reported, in order. -/
  diagnostics : List Diagnostic
  /-- The lint state at this point. -/
  suppression : Suppression
  /-- The handlers known at this point. -/
  handlers : Handlers
  /-- The view models declared so far. -/
  viewmodels : List TypeReference
  deriving DecidableEq

namespace Builder

/-- Reports a diagnostic. -/
def report (b : Builder) (kind : Kind) (location : Option Location)
    (arguments : List String) : Builder :=
  { b with diagnostics := b.diagnostics ++ [.ofKind kind b.document.file location arguments] }

/-- Adds a node below a given one; the answer is its number. -/
def addNode (b : Builder) (parent : NodeId) (kind : NodeKind) : NodeId × Builder :=
  (b.document.nodes.size, { b with document := b.document.addNode parent kind })

/-- Declares a view model.  The first one of a view gives the root its type; a later one is
reported, and opens a node of its own. -/
def viewmodel (b : Builder) (current : NodeId) (location : Location) (type : TypeReference) :
    NodeId × Builder :=
  let b := { b with viewmodels := b.viewmodels ++ [type] }
  let content : NodeKind := .type ⟨some type, true, some location⟩
  match b.document.viewmodel? with
  | none => (current, { b with document := b.document.setKind Document.root fun _ => content })
  | some _ =>
    (b.report .multipleViewmodelReferences (some location) []).addNode current content

/-- The effect of a directive; the answer is the node that is active behind it. -/
def directive (b : Builder) (current : NodeId) : Directive → NodeId × Builder
  | .imports content =>
    (current,
      { b with
        handlers := b.handlers.importAll content.aliases
        document := { b.document with imports := b.document.imports ++ [content] } })
  | .viewmodel location type => b.viewmodel current location type
  | .context location type => b.addNode current (.type ⟨some type, false, some location⟩)
  | .lint location keys enable =>
    let state := if enable then b.suppression.enable keys else b.suppression.disable keys
    (current,
      { b with
        suppression := state
        document :=
          { b.document with timeline := b.document.timeline.push location.start state } })

/-! ### Elements -/

/-- Reads the bindings of an element.  A payload that cannot be read is reported, and the
others count. -/
def payloads (b : Builder) : List Payload → List ParsedBinding × Builder
  | [] => ([], b)
  | p :: ps =>
    match parsePayload b.document.file p with
    | .ok found =>
      let (more, b) := b.payloads ps
      (found ++ more, b)
    | .error d => { b with diagnostics := b.diagnostics ++ [d] }.payloads ps

/-- Reports more than one binding in a comment. -/
def checkComment (b : Builder) (e : Element) (found : List ParsedBinding) : Builder :=
  if e.isVirtual && 1 < found.length then
    b.report .multipleCommentBindings (some e.location) []
  else b

/-- The declared handlers among some bindings. -/
def declaredOf (b : Builder) (found : List ParsedBinding) : List String :=
  (found.map (·.handler.value)).filter b.handlers.isDeclared

/-- Reports more than one declared handler on an element. -/
def checkDeclared (b : Builder) (e : Element) (found : List ParsedBinding) : Builder :=
  let names := b.declaredOf found
  if 1 < names.length then
    b.report .multipleContextBindings (some e.location) [", ".intercalate names]
  else b

/-- Adds bindings of a node, which are numbered one after the other. -/
def addBindings (b : Builder) (node : NodeId) (parent : Option BindingId) :
    List ParsedBinding → Builder
  | [] => b
  | p :: ps =>
    { b with document := b.document.addBinding p node parent }.addBindings node parent ps

/-- The number of the first binding that can open a context, when the bindings are numbered
from `first` on. -/
def generating? (b : Builder) (first : BindingId) : List ParsedBinding → Option BindingId
  | [] => none
  | p :: ps =>
    if b.handlers.isGenerating p.handler.value then some first else b.generating? (first + 1) ps

/-- The effect of the bindings of an element inside the node `current` and the binding
`context`.  The answer is the node and the binding that its content is inside of. -/
def element (b : Builder) (current : NodeId) (context : Option BindingId) (e : Element) :
    (NodeId × Option BindingId) × Builder :=
  let (found, b) := b.payloads e.bindings
  if found.isEmpty then ((current, context), b)
  else
    let b := (b.checkComment e found).checkDeclared e found
    let first := b.document.bindings.size
    let ids := (List.range found.length).map (first + ·)
    let content : BindingNode :=
      ⟨e.tag, e.location, ids, e.isVirtual, decide (1 < (b.declaredOf found).length)⟩
    let (node, b) := b.addNode current (.binding content)
    ((node, (b.generating? first found).or context), b.addBindings node context found)

end Builder

/-! ### The content of elements -/

/-- The surroundings of some content: the active node, the binding that new bindings nest
under, the element whose end tag closes it, and how many elements are open. -/
structure Frame where
  current : NodeId
  context : Option BindingId
  opened : Option Element
  depth : Nat

/-- Reads the content of one element, from at most `fuel` tokens.  The answer is what was
built and the tokens behind the end tag, or why there is no tree. -/
def children : Nat → Frame → Builder → List Token →
    Except (Incomplete × Builder) (Builder × List Token)
  | 0, _, b, ts => .ok (b, ts)
  | _, f, b, [] =>
    match f.opened with
    | some e => .error (.unbalanced e.location, b)
    | none => .ok (b, [])
  | fuel + 1, f, b, .directive d :: ts =>
    let (current, b) := b.directive f.current d
    children fuel { f with current } b ts
  | fuel + 1, f, b, .element e :: ts =>
    match e.type with
    | .stop =>
      if f.opened.any (·.tag == e.tag) then .ok (b, ts) else .error (.unbalanced e.location, b)
    | .empty => children fuel f (b.element f.current f.context e).2 ts
    | .start =>
      if maxNesting ≤ f.depth then .error (.tooDeep e, b)
      else
        let ((current, context), b) := b.element f.current f.context e
        match children fuel ⟨current, context, some e, f.depth + 1⟩ b ts with
        | .error failure => .error failure
        | .ok (b, rest) => children fuel f b rest

namespace Builder

/-- Reports why there is no tree. -/
def reportIncomplete (b : Builder) : Incomplete → Builder
  | .unbalanced location => b.report .unbalancedTags (some location) []
  | .tooDeep e =>
    b.report .malformedMarkup (some e.location)
      ["at most " ++ Nat.repr maxNesting ++ " nested elements", e.tag, "element"]

/-- Reports a view model whose first name is not imported. -/
def checkViewmodel (b : Builder) (type : TypeReference) : Builder :=
  if b.document.isImported type.rootName then b
  else b.report .viewmodelNotFound (some type.name.location) [type.rootName]

/-- The checks that need the whole view. -/
def finish (b : Builder) : Builder :=
  let b := if b.document.viewmodel?.isNone then b.report .noViewmodelReference none [] else b
  b.viewmodels.foldl checkViewmodel b

/-- The diagnostics that the lint directives of the view let pass. -/
def allowed (b : Builder) : List Diagnostic :=
  b.diagnostics.filter b.document.timeline.allows

end Builder

/-- What a view amounts to.  There is no document if its elements make no tree. -/
structure Built where
  document : Option Document
  diagnostics : List Diagnostic
  deriving DecidableEq

/-- The builder before the first token of a view. -/
def Builder.initial (file text : String) (dialect : Dialect) (handlers : Handlers) : Builder :=
  ⟨.empty file dialect text, [], .initial, handlers, []⟩

/-- Reads all tokens of a view. -/
def buildTokens (file text : String) (tokenized : Tokenized) (handlers : Handlers) :
    Except (Incomplete × Builder) (Builder × List Token) :=
  children (tokenized.tokens.length + 1) ⟨Document.root, none, none, 0⟩
    (.initial file text tokenized.dialect handlers) tokenized.tokens

/-- The document of a view, and the diagnostics that its lint directives let pass. -/
def build (file text : String) (tokenized : Tokenized) (handlers : Handlers) : Built :=
  match buildTokens file text tokenized handlers with
  | .error (incomplete, b) => ⟨none, (b.reportIncomplete incomplete).allowed⟩
  | .ok (b, _) =>
    let b := b.finish
    ⟨some b.document, b.allowed⟩

end ViewLint
