import ViewLint.Location

/-!
# Tokens of a view

A view is read as a list of tokens: the tags of elements with the raw text of their bindings,
and the directives that comments hold.

## Main definitions

* `Dialect` — HTML or XML.
* `Ident` — a name with its place.
* `Payload` — the unread text of a binding attribute.
* `Element` — a tag; `Import`, `TypeReference`, `Directive` — the contents of comments.
* `Token` — a tag or a directive.
-/

namespace ViewLint

/-- The language of a view. -/
inductive Dialect where
  | html
  | xml
  deriving DecidableEq, Repr, Inhabited

/-- A name with its place. -/
structure Ident where
  value : String
  location : Location
  deriving DecidableEq, Repr, Inhabited

/-- The text of a binding attribute or of a virtual element. -/
structure Payload where
  location : Location
  text : String
  deriving DecidableEq, Repr, Inhabited

/-- What a tag does to the structure of the view. -/
inductive TagType where
  | start
  | stop
  | empty
  deriving DecidableEq, Repr, Inhabited

/-- A tag with the texts of its bindings.  A virtual element is written in comments. -/
structure Element where
  tag : String
  type : TagType
  location : Location
  bindings : List Payload
  isVirtual : Bool
  deriving DecidableEq, Repr, Inhabited

/-- A symbol of another module, and the name it goes by in the view. -/
structure ImportSymbol where
  name : Ident
  given : Ident
  deriving DecidableEq, Repr, Inhabited

/-- The symbols that a view takes from a module. -/
structure Import where
  location : Location
  symbols : List ImportSymbol
  path : Ident
  deriving DecidableEq, Repr, Inhabited

/-- Whether a module is taken as a whole. -/
def Import.isNamespace (i : Import) : Bool :=
  match i.symbols with
  | [s] => s.name.value == "*"
  | _ => false

/-- The names that an import brings in. -/
def Import.aliases (i : Import) : List String := i.symbols.map (·.given.value)

/-- A type by its name, or the type of a value by the name of the value. -/
structure TypeReference where
  name : Ident
  isType : Bool
  deriving DecidableEq, Repr, Inhabited

/-- The first name of the path. -/
def TypeReference.rootName (r : TypeReference) : String :=
  .ofList (r.name.value.toList.takeWhile fun c => c != '.' && c != '<')

/-- The type as it is written in code. -/
def TypeReference.text (r : TypeReference) : String :=
  if r.isType then r.name.value else "typeof " ++ r.name.value

/-- What a comment tells the linter. -/
inductive Directive where
  /-- Symbols of a module are used. -/
  | imports (content : Import)
  /-- The type of the view model. -/
  | viewmodel (location : Location) (type : TypeReference)
  /-- The type of the context in the rest of the enclosing element. -/
  | context (location : Location) (type : TypeReference)
  /-- Diagnostics are silenced, or let pass again. -/
  | lint (location : Location) (keys : List String) (enable : Bool)
  deriving DecidableEq, Repr, Inhabited

/-- Where a directive stands. -/
def Directive.location : Directive → Location
  | .imports content => content.location
  | .viewmodel location _ => location
  | .context location _ => location
  | .lint location _ _ => location

/-- A tag or a directive. -/
inductive Token where
  | element (content : Element)
  | directive (content : Directive)
  deriving DecidableEq, Repr, Inhabited

/-- Where a token stands. -/
def Token.location : Token → Location
  | .element content => content.location
  | .directive content => content.location

end ViewLint
