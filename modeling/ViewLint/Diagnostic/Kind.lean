/-!
# Kinds of diagnostics

The catalogue of what the linter reports by itself.  Each kind has a code, a name, a
template for its message and a severity.

## Main definitions

* `Severity` — how serious a diagnostic is.
* `Kind` — the kinds, with `Kind.code`, `Kind.name`, `Kind.template`, `Kind.severity`.
* `Kind.all` — the catalogue, by code.
-/

namespace ViewLint

/-- How serious a diagnostic is. -/
inductive Severity where
  | off
  | warning
  | error
  deriving DecidableEq, Repr, Inhabited

/-- The word for a severity. -/
def Severity.word : Severity → String
  | .off => "off"
  | .warning => "warning"
  | .error => "error"

/-- The severity with a given word. -/
def Severity.ofWord? (w : String) : Option Severity :=
  [Severity.off, .warning, .error].find? (·.word == w)

/-- What the linter reports by itself. -/
inductive Kind where
  | multipleContextBindings
  | noViewmodelReference
  | multipleCommentBindings
  | scriptError
  | viewmodelNotFound
  | unbalancedTags
  | contextUnknown
  | malformedMarkup
  | multipleGeneratingBindings
  | bindingUnknown
  | unknownScope
  | multipleViewmodelReferences
  deriving DecidableEq, Repr, Inhabited

namespace Kind

/-- The catalogue. -/
def all : List Kind :=
  [.multipleContextBindings, .noViewmodelReference, .multipleCommentBindings, .scriptError,
    .viewmodelNotFound, .unbalancedTags, .contextUnknown, .malformedMarkup,
    .multipleGeneratingBindings, .bindingUnknown, .unknownScope, .multipleViewmodelReferences]

/-- The code of a kind. -/
def code : Kind → String
  | .multipleContextBindings => "KO0001"
  | .noViewmodelReference => "KO0002"
  | .multipleCommentBindings => "KO0003"
  | .scriptError => "KO0004"
  | .viewmodelNotFound => "KO0005"
  | .unbalancedTags => "KO0010"
  | .contextUnknown => "KO0012"
  | .malformedMarkup => "KO0014"
  | .multipleGeneratingBindings => "KO0015"
  | .bindingUnknown => "KO0016"
  | .unknownScope => "KO0017"
  | .multipleViewmodelReferences => "KO0018"

/-- The name of a kind. -/
def name : Kind → String
  | .multipleContextBindings => "multiple-context-bindings"
  | .noViewmodelReference => "no-viewmodel-reference"
  | .multipleCommentBindings => "multiple-comment-bindings"
  | .scriptError => "javascript-syntax-error"
  | .viewmodelNotFound => "could-not-find-viewmodel"
  | .unbalancedTags => "unbalanced-start-end-tags"
  | .contextUnknown => "binding-context-unknown"
  | .malformedMarkup => "parser-error"
  | .multipleGeneratingBindings => "multiple-context-generating-bindings"
  | .bindingUnknown => "binding-unknown"
  | .unknownScope => "unknown-scope"
  | .multipleViewmodelReferences => "multiple-viewmodel-references"

/-- The template of the message of a kind. -/
def template : Kind → String
  | .multipleContextBindings =>
    "Only one binding-handler per element can create child contexts. Move [$0] into separate elements."
  | .noViewmodelReference => "Missing Viewmodel reference"
  | .multipleCommentBindings => "Can not have multiple bindings in the same comment."
  | .scriptError => "Syntax error: $0."
  | .viewmodelNotFound => "Could not find viewModel '$0'."
  | .unbalancedTags => "Unbalanced start and/or end tags results in incomplete tree."
  | .contextUnknown => "Unknown type of binding context"
  | .malformedMarkup => "Expected $0, got \"$1\" ($2)."
  | .multipleGeneratingBindings =>
    "Multiple context generating bindings in same node are not allowed."
  | .bindingUnknown => "Type unknown for binding handler '$0'."
  | .unknownScope =>
    "Scope of binding handler '$0' can not be determined: the 'as' alias must be a string literal."
  | .multipleViewmodelReferences => "Multiple viewmodel references in one view are not supported."

/-- The severity of a kind unless options say otherwise. -/
def severity : Kind → Severity
  | .multipleCommentBindings => .warning
  | .viewmodelNotFound => .warning
  | .multipleViewmodelReferences => .warning
  | _ => .error

/-- A kind by name and code. -/
def title (k : Kind) : String := k.name ++ " (" ++ k.code ++ ")"

/-- The kind with a given code. -/
def ofCode? (code : String) : Option Kind := all.find? (·.code == code)

/-- Every kind is in the catalogue. -/
theorem mem_all (k : Kind) : k ∈ all := by cases k <;> decide

/-- A code belongs to one kind only. -/
theorem ofCode?_code (k : Kind) : ofCode? k.code = some k := by cases k <;> decide

end Kind

end ViewLint
