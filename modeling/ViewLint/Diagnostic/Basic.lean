import ViewLint.Diagnostic.Kind
import ViewLint.Diagnostic.Message
import ViewLint.Location

/-!
# Diagnostics

A diagnostic says what is wrong and where.  It is named by a code or by a name; options and
directives refer to it by either.

## Main definitions

* `Diagnostic` — the record of a diagnostic.
* `Diagnostic.ofKind` — a diagnostic of the linter's own catalogue.
* `Diagnostic.ofFinding` — a diagnostic that a type checker has made.
* `applyOverrides` — the diagnostics with the severities that options ask for.
-/

namespace ViewLint

/-- What is wrong, and where. -/
structure Diagnostic where
  code : String
  name : String
  message : String
  severity : Severity
  file : String
  location : Option Location
  deriving DecidableEq, Repr, Inhabited

namespace Diagnostic

/-- A diagnostic of the linter's own catalogue. -/
def ofKind (kind : Kind) (file : String) (location : Option Location)
    (arguments : List String) : Diagnostic where
  code := kind.code
  name := kind.name
  message := fillTemplate kind.template arguments
  severity := kind.severity
  file := file
  location := location

/-- A diagnostic of a type checker, already moved to the markup. -/
def ofFinding (file : String) (code : Nat) (message : String) (severity : Severity)
    (location : Option Location) : Diagnostic where
  code := "TS" ++ Nat.repr code
  name := Nat.repr code
  message := message
  severity := severity
  file := file
  location := location

/-- Whether a diagnostic is of a given kind. -/
def isOf (d : Diagnostic) (kind : Kind) : Bool := d.code == kind.code

/-- Whether a key names a diagnostic, by code or by name. -/
def matchesKey (d : Diagnostic) (key : String) : Bool := d.code == key || d.name == key

/-- A diagnostic on one line, with its place if it has one. -/
def display (d : Diagnostic) : String :=
  match d.location with
  | some l =>
    d.file ++ ":" ++ Nat.repr l.first.line ++ ":" ++ Nat.repr (l.first.column + 1) ++ " " ++
      d.code ++ " " ++ d.message
  | none => d.file ++ " " ++ d.code ++ " " ++ d.message

/-- A diagnostic with the severity that overrides ask for, by its code or else by its name;
nothing when they turn it off. -/
def override? (overrides : List (String × Severity)) (d : Diagnostic) : Option Diagnostic :=
  let severity := ((overrides.lookup d.code).or (overrides.lookup d.name)).getD d.severity
  if severity = .off then none else some { d with severity }

end Diagnostic

/-- The diagnostics with the severities that overrides ask for. -/
def applyOverrides (overrides : List (String × Severity)) (ds : List Diagnostic) :
    List Diagnostic :=
  ds.filterMap (·.override? overrides)

end ViewLint
