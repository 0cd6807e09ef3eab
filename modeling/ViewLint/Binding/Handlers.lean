import ViewLint.Text.NameSet

/-!
# Binding handlers that open contexts

Some binding handlers evaluate the content of their element in a context of their own.  The
standard ones and those that options name are declared before a view is read; those that a
view imports become known with its imports.

## Main definitions

* `Handlers` — the declared and the imported handlers.
* `Handlers.isDeclared`, `Handlers.isGenerating` — whether a handler is among the declared
  ones, or among either.
-/

namespace ViewLint

/-- The handlers that always open a context. -/
def standardHandlers : List String := ["foreach", "with", "using", "let"]

/-- The handlers that can open a context. -/
structure Handlers where
  declared : NameSet
  imported : NameSet
  deriving DecidableEq

namespace Handlers

/-- The standard handlers and those that options name. -/
def ofConfigured (configured : List String) : Handlers :=
  ⟨(NameSet.ofList standardHandlers).insertMany configured, .empty⟩

instance : Inhabited Handlers := ⟨ofConfigured []⟩

/-- Adds an imported symbol, unless it is declared. -/
def import? (h : Handlers) (name : String) : Handlers :=
  if name ∈ h.declared then h else { h with imported := h.imported.insert name }

/-- Adds imported symbols. -/
def importAll (h : Handlers) (names : List String) : Handlers := names.foldl import? h

/-- Whether a handler is a standard or a configured one. -/
def isDeclared (h : Handlers) (name : String) : Bool := decide (name ∈ h.declared)

/-- Whether a handler can open a context. -/
def isGenerating (h : Handlers) (name : String) : Bool :=
  decide (name ∈ h.declared) || decide (name ∈ h.imported)

end Handlers

end ViewLint
