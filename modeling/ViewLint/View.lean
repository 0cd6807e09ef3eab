import ViewLint.Document.Build
import ViewLint.Resolve.Basic
import ViewLint.Script.Accept
import ViewLint.Settings

/-!
# Linting views

## Main definitions

* `View` — a view to be linted.
* `parseView` — the document of a view.
* `lintView` — what is wrong with a view, and how it resolves.
* `lintViews` — what is wrong with several views.
-/

namespace ViewLint

variable [ScriptParser] {U : Type}

/-- A view to be linted. -/
structure View where
  file : String
  text : String
  deriving DecidableEq, Repr

/-- The document of a view, with the diagnostics that its lint directives let pass.  The byte
order mark that the text may begin with is no part of the document. -/
def parseView (settings : Settings) (view : View) : Built :=
  let t := Markup.stripMark view.text.toList
  match Markup.tokenize view.file t settings.markup with
  | .error d => ⟨none, [d]⟩
  | .ok tokenized => build view.file (.ofList t) tokenized settings.registered

/-- What is wrong with a view.  A view without a document or without a view model is not
resolved. -/
structure Linted where
  file : String
  diagnostics : List Diagnostic
  resolved : Option Resolved
  deriving DecidableEq

/-- Lints a view.  The answer holds the requests to the type checker, also if one of them
fails. -/
def runLintView (o : Oracle U) (settings : Settings) (view : View) :
    Except OracleError Linted × List (Call U) :=
  let built := parseView settings view
  match built.document with
  | none => (.ok ⟨view.file, built.diagnostics, none⟩, [])
  | some d =>
    if d.viewmodel?.isNone then (.ok ⟨view.file, built.diagnostics, none⟩, [])
    else
      let (outcome, e) := runResolve o d settings.typeLibrary
      (outcome.map fun r => ⟨view.file, built.diagnostics ++ r.diagnostics, some r⟩, e.calls)

/-- Lints a view, without regard to chosen severities. -/
def lintView (o : Oracle U) (settings : Settings) (view : View) : Except OracleError Linted :=
  (runLintView o settings view).1

/-- What is wrong with several views, and the programs that they were checked with. -/
structure LintResult where
  diagnostics : List Diagnostic
  outputs : List ProbeOutput
  deriving DecidableEq

/-- Lints views in order.  A failure of the type checker ends the whole run; chosen severities
apply to all diagnostics together. -/
def lintViews (o : Oracle U) (settings : Settings) (views : List View) :
    Except OracleError LintResult := do
  let results ← views.mapM (lintView o settings)
  return ⟨applyOverrides settings.severity (results.flatMap (·.diagnostics)),
    results.filterMap fun r => r.resolved.map (·.probe)⟩

end ViewLint
