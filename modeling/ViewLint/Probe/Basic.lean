import ViewLint.Oracle
import ViewLint.Probe.Name
import ViewLint.SourceMap.Render

/-!
# Probe programs

A probe program is written for a type checker, to learn what is in scope in a context and what
a binding makes of it.  It only grows: text is emitted, and from time to time all of it is
committed as the next revision.  Text that is copied from the markup is mapped back to it.

## Main definitions

* `Declaration` — what a program declares for a view.
* `Mark` — a stretch of emitted text that comes from the markup.
* `Probe` — a program under construction.
* `Probe.emit`, `Probe.emitMapped`, `Probe.declare` — more text.
* `Probe.commit` — the next revision.
* `Probe.finish` — the finished program with its map to the markup.
-/

namespace ViewLint

open Text

/-- What a program declares for a view. -/
inductive Declaration where
  /-- The context of a view model. -/
  | root (context : ContextId) (type : TypeReference)
  /-- A context of a declared type inside another one. -/
  | directive (context : ContextId) (type : TypeReference) (parent : ContextId)
  /-- The context that a binding opens. -/
  | bindingContext (context : ContextId) (binding : BindingId)
  /-- The value with everything in scope in a context. -/
  | scope (context : ContextId)
  /-- The value of a binding in a context with the given members. -/
  | transformation (binding : Binding) (context : ContextId) (members : List String)
  deriving DecidableEq, Repr

/-- A stretch of emitted text, from byte `start` to byte `stop`, that comes from the markup at
`sourceStart`. -/
structure Mark where
  start : Nat
  stop : Nat
  sourceStart : Nat
  name : Option String
  deriving DecidableEq, Repr, Inhabited

/-- A program under construction. -/
structure Probe where
  markupFile : String
  /-- The committed text. -/
  text : String
  /-- The text that has been emitted since the last revision. -/
  pending : String
  /-- Where the pending text comes from; offsets count from its start. -/
  marks : List Mark
  /-- The maps of the revisions, each to the one before and to the markup. -/
  chain : Chain
  /-- The map of the committed text to the markup. -/
  merged : SourceMap
  /-- What the program declares, in order. -/
  declarations : List Declaration
  deriving DecidableEq, Repr

/-- The text that every program begins with. -/
def scaffold (typeLibrary : String) : String :=
  "import \x7b RootBindingContext, ChildBindingContext, StandardBindingContextTransforms, " ++
    "BindingContextTransform \x7d from " ++ quote typeLibrary ++ "\n" ++
  "type BindingContextTransforms = StandardBindingContextTransforms & " ++
    "CustomBindingTransforms\n" ++
  "function getBindingContextFactory<K extends keyof BindingContextTransforms>" ++
    "(bindingHandlerName: K) \x7b\n" ++
  "\tvoid bindingHandlerName\n" ++
  "\tconst factory: BindingContextTransforms[K] = 0 as any\n" ++
  "\treturn factory\n" ++
  "\x7d\n"

namespace Probe

/-- A program that has nothing but the scaffold yet. -/
def initial (markupFile typeLibrary : String) : Probe :=
  ⟨markupFile, "", scaffold typeLibrary, [], .empty, .empty "", []⟩

/-- The file of the program. -/
def file (p : Probe) : String := p.markupFile ++ ".ts"

/-- The number of revisions. -/
def revisions (p : Probe) : Nat := p.chain.size

/-- The name of a revision. -/
def revisionName (p : Probe) (revision : Nat) : String := p.file ++ "#" ++ Nat.repr revision

/-- Whether text has been emitted since the last revision. -/
def hasPending (p : Probe) : Bool := !p.pending.isEmpty

/-! ### Emission -/

/-- Emits text of the program's own. -/
def emit (p : Probe) (text : String) : Probe := { p with pending := p.pending ++ text }

/-- Emits text that comes from `size` bytes at `sourceStart` of the markup. -/
def emitAt (p : Probe) (text : String) (sourceStart size : Nat) (name : Option String) : Probe :=
  let start := p.pending.utf8ByteSize
  let mark : Mark := ⟨start, start + min text.utf8ByteSize size, sourceStart, name⟩
  { p.emit text with marks := p.marks ++ [mark] }

/-- Emits text as it stands at a place of the markup. -/
def emitMapped (p : Probe) (text : String) (location : Location) (name : Option String) :
    Probe :=
  p.emitAt text location.start location.size name

/-- Emits the literal of a text that stands between quotes in the markup. -/
def emitQuoted (p : Probe) (value : String) (location : Location) : Probe :=
  p.emitAt (quote value) (location.start - 1) (location.size + 2) none

/-- Emits a name. -/
def emitIdent (p : Probe) (i : Ident) : Probe := p.emitMapped i.value i.location (some i.value)

/-- Emits a type. -/
def emitType (p : Probe) (type : TypeReference) : Probe :=
  (if type.isType then p else p.emit "typeof ").emitMapped type.name.value type.name.location none

/-- Puts a mark of one byte, to `sourceStart`, at the start of every unmarked stretch from
`cursor` to `stop`. -/
def anchored (sourceStart stop : Nat) : Nat → List Mark → List Mark
  | cursor, [] => if cursor < stop then [⟨cursor, cursor + 1, sourceStart, none⟩] else []
  | cursor, m :: ms =>
    let rest := m :: anchored sourceStart stop (max cursor m.stop) ms
    if cursor < m.start then ⟨cursor, cursor + 1, sourceStart, none⟩ :: rest else rest

/-- Lets the unmarked text that has been emitted since `start` come from `sourceStart`. -/
def anchor (p : Probe) (start sourceStart : Nat) : Probe :=
  { p with marks := p.marks.takeWhile (·.start < start) ++
      anchored sourceStart p.pending.utf8ByteSize start (p.marks.dropWhile (·.start < start)) }

/-! ### Imports and handlers -/

/-- Emits an imported symbol. -/
def emitSymbol (p : Probe) (s : ImportSymbol) : Probe :=
  if s.name.value = s.given.value then p.emitIdent s.name
  else
    let p := if s.name.location = s.given.location then p.emit s.name.value
      else p.emitIdent s.name
    (p.emit " as ").emitIdent s.given

/-- Emits imported symbols with commas between them. -/
def emitSymbols (p : Probe) : List ImportSymbol → Probe
  | [] => p
  | [s] => p.emitSymbol s
  | s :: rest => ((p.emitSymbol s).emit ", ").emitSymbols rest

/-- Emits an import. -/
def emitImport (p : Probe) (i : Import) : Probe :=
  let p :=
    match i.isNamespace, i.symbols with
    | true, s :: _ => (p.emit "import * as ").emitIdent s.given
    | _, symbols => ((p.emit "import \x7b ").emitSymbols symbols).emit " \x7d"
  ((p.emit " from ").emitQuoted i.path.value i.path.location).emit "\n"

/-- Emits the imports of a view. -/
def emitImports (p : Probe) (imports : List Import) : Probe := imports.foldl emitImport p

/-- Declares the handlers that a view imports. -/
def emitHandlers (p : Probe) (handlers : List String) : Probe :=
  let p := p.emit "interface CustomBindingTransforms \x7b\n"
  let p := handlers.foldl
    (fun p name => p.emit (quote name ++ ": BindingContextTransform<" ++ name ++ ">\n")) p
  p.emit "\x7d\n"

/-! ### Declarations -/

/-- Emits the context of a view model. -/
def emitRoot (p : Probe) (context : ContextId) (type : TypeReference) : Probe :=
  ((p.emit ("const " ++ contextName context ++ ": RootBindingContext<")).emitType type).emit
    "> = (undefined as any)\n"

/-- Emits a context of a declared type inside another one. -/
def emitDirective (p : Probe) (context : ContextId) (type : TypeReference)
    (parent : ContextId) : Probe :=
  ((p.emit ("const " ++ contextName context ++ ": ChildBindingContext<")).emitType type).emit
    (", typeof " ++ contextName parent ++ "> = (undefined as any)\n")

/-- Emits the context that a binding opens. -/
def emitBindingContext (p : Probe) (context : ContextId) (binding : BindingId) : Probe :=
  p.emit ("const " ++ contextName context ++ " = " ++ bindingName binding ++ "\n")

/-- Emits the value with everything in scope in a context. -/
def emitScope (p : Probe) (context : ContextId) : Probe :=
  let name := contextName context
  p.emit ("const " ++ scopeName context ++ " = \x7b ..." ++ name ++ ", ..." ++ name ++
    ".$data \x7d\n")

/-- Emits the value of a binding.  Its expression sees the members in scope as local names, and
the handler makes a context of the result.  What does not come from the markup is put down to
the handler. -/
def emitTransformation (p : Probe) (b : Binding) (context : ContextId)
    (members : List String) : Probe :=
  let start := p.pending.utf8ByteSize
  let locals := ", ".intercalate (members.filter isBindable)
  let p := p.emit ("function " ++ transformationName b.id ++ "($context: typeof " ++
    contextName context ++ ") \x7b\n")
  let p := p.emit ("const \x7b " ++ locals ++ " \x7d = \x7b ...$context, ...$context.$data \x7d\n")
  let p := p.emit "return getBindingContextFactory("
  let p := p.emitQuoted b.handler.value b.handler.location
  let p := p.emit ")("
  let p := p.emitMapped b.expression.text b.expression.location none
  let p := p.emit ", $context)\n\x7d\n"
  let p := p.emit ("const " ++ bindingName b.id ++ " = " ++ transformationName b.id ++ "(" ++
    contextName context ++ ")\n")
  p.anchor start b.handler.location.start

/-- Emits a declaration. -/
def declare (p : Probe) (d : Declaration) : Probe :=
  let p := { p with declarations := p.declarations ++ [d] }
  match d with
  | .root context type => p.emitRoot context type
  | .directive context type parent => p.emitDirective context type parent
  | .bindingContext context binding => p.emitBindingContext context binding
  | .scope context => p.emitScope context
  | .transformation binding context members => p.emitTransformation binding context members

/-! ### Revisions -/

/-- The map of the next revision: what is committed comes from the revision before, and the
pending text from the markup. -/
def nextMap (p : Probe) : SourceMap :=
  let size := p.text.utf8ByteSize
  let m := SourceMap.empty (p.revisionName p.revisions)
  let m :=
    match p.revisions with
    | 0 => m
    | n + 1 =>
      let (previous, m) := m.addSource (p.revisionName n)
      m.addSegment 0 size previous 0 none
  let (markup, m) := m.addSource p.markupFile
  p.marks.foldl
    (fun m k => m.addSegment (size + k.start) (size + k.stop) markup k.sourceStart k.name) m

/-- Commits the pending text as the next revision. -/
def commit (p : Probe) : SourceUnit × Probe :=
  let m := p.nextMap
  let text := p.text ++ p.pending
  (⟨p.file, text, p.revisions⟩,
    { p with
      text
      pending := ""
      marks := []
      chain := p.chain.push m
      merged := if p.revisions = 0 then m else m.mergeWith p.merged })

/-- The place that an offset of the committed text comes from. -/
def translate (p : Probe) (offset : Nat) : Option Place := p.merged.translate offset

end Probe

/-- A finished program with its map to the markup. -/
structure ProbeOutput where
  markupFile : String
  file : String
  code : String
  revisions : Nat
  map : SourceMap
  deriving DecidableEq, Repr

/-- The finished program. -/
def Probe.finish (p : Probe) : ProbeOutput :=
  ⟨p.markupFile, p.file, p.text, p.revisions, { p.merged with file := p.file }⟩

/-- The map of a program in the interchange format. -/
def ProbeOutput.rendered (o : ProbeOutput) (markup : String) : RenderedMap :=
  o.map.render o.code [markup]

end ViewLint
