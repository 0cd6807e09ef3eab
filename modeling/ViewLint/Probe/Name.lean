import ViewLint.Context
import ViewLint.Text.Blank

/-!
# Names in probe programs

## Main definitions

* `isBindable` — whether a member can become a local name.
* `scopeName`, `transformationName` — the names that a program declares.
-/

namespace ViewLint

open Text

/-- The words that cannot be local names. -/
def reservedWords : List String :=
  ["break", "case", "catch", "class", "const", "continue", "debugger", "default", "delete",
    "do", "else", "enum", "export", "extends", "false", "finally", "for", "function", "if",
    "import", "in", "instanceof", "new", "null", "return", "super", "switch", "this", "throw",
    "true", "try", "typeof", "var", "void", "while", "with", "as", "implements", "interface",
    "let", "package", "private", "protected", "public", "static", "yield", "any", "boolean",
    "constructor", "declare", "get", "module", "require", "number", "set", "string", "symbol",
    "type", "from", "of", "namespace", "maybe", "async", "await", "arguments"]

/-- Whether a text is an identifier of letters, digits, underscores and dollar signs. -/
def isIdentifier : List Char → Bool
  | c :: t => isNameStart c && t.all isNamePart
  | [] => false

/-- Whether a member can become a local name: an identifier that is no reserved word and does
not begin with two underscores. -/
def isBindable (name : String) : Bool :=
  let t := name.toList
  isIdentifier t && !reservedWords.contains name && !("__".toList.isPrefixOf t)

/-- The name of the value with everything in scope in a context. -/
def scopeName (context : ContextId) : String := "scope_" ++ contextName context

/-- The name of the function that evaluates a binding. -/
def transformationName (binding : BindingId) : String :=
  "transformation_" ++ bindingName binding

end ViewLint
