import ViewLint.Diagnostic.Kind
import ViewLint.Json

/-!
# Type oracles

A type oracle is a static type checker.  It is handed revisions of a program, says what it
knows about the types of named values in the newest one, and lists the type errors there.

## Main definitions

* `SourceUnit` — one revision of a program.
* `Shape` — what is known about the type of a value.
* `Finding` — a type error.
* `OracleError` — why a call fails.
* `Oracle` — a checker, with handles of type `U` for the revisions it has compiled.
* `Call` — one request to a checker.
-/

namespace ViewLint

/-- One revision of a program. -/
structure SourceUnit where
  name : String
  text : String
  revision : Nat
  deriving DecidableEq, Repr, Inhabited

/-- What is known about the type of a value. -/
inductive Shape where
  /-- A type with its members.  Types with the same identifier are equal. -/
  | known (typeId : String) (members : List String)
  /-- A type that says nothing about the value. -/
  | dynamic
  deriving DecidableEq, Repr, Inhabited

namespace Shape

/-- The identifier of a known type. -/
def typeId? : Shape → Option String
  | known id _ => some id
  | dynamic => none

/-- The members of a known type. -/
def members : Shape → List String
  | known _ names => names
  | dynamic => []

/-- Whether nothing is known. -/
def isDynamic : Shape → Bool
  | known _ _ => false
  | dynamic => true

/-- The shape that a value describes: an object whose `kind` says which one it is, or an array
of the kind and the parts of the shape in order. -/
def ofJson? (v : Json) : Option Shape :=
  match v with
  | .object _ => do
    match ← (← v.field? "kind").text? with
    | "known" => return known (← (← v.field? "typeId").text?) (← (← v.field? "members").texts?)
    | "dynamic" => return dynamic
    | _ => none
  | .array (kind :: parts) => do
    match ← kind.text?, parts with
    | "known", [id, names] => return known (← id.text?) (← names.texts?)
    | "dynamic", [] => return dynamic
    | _, _ => none
  | _ => none

end Shape

/-- A type error, with its place in a program. -/
structure Finding where
  file : String
  start : Nat
  /-- The number of bytes, which can be any word of 32 bits. -/
  length : Nat
  message : String
  code : Nat
  severity : Severity
  deriving DecidableEq, Repr

/-- Why a call fails. -/
inductive OracleError where
  | unreachable (reason : String)
  | unknownUnit (name : String)
  | missing (unit identifier : String)
  | protocol (reason : String)
  deriving DecidableEq, Repr

/-- What is said about a failed call. -/
def OracleError.message : OracleError → String
  | unreachable reason => "type oracle unreachable: " ++ reason
  | unknownUnit name => "unknown compiled unit '" ++ name ++ "'"
  | missing unit identifier =>
    "identifier '" ++ identifier ++ "' is not declared in '" ++ unit ++ "'"
  | protocol reason => "type oracle protocol error: " ++ reason

/-- A type checker. -/
structure Oracle (U : Type) where
  /-- Takes a revision, with the handle of the one before it. -/
  compile : SourceUnit → Option U → Except OracleError U
  /-- The types of named values. -/
  inspect : U → List String → Except OracleError (List (String × Shape))
  /-- The type errors. -/
  findings : U → Except OracleError (List Finding)

/-- A request to a type checker. -/
inductive Call (U : Type) where
  | compile (source : SourceUnit) (previous : Option U)
  | inspect (unit : U) (identifiers : List String)
  | findings (unit : U)
  deriving DecidableEq, Repr

/-- What an answer says about a value; nothing is known about a value that is left out. -/
def shapeOf (shapes : List (String × Shape)) (name : String) : Shape :=
  (shapes.lookup name).getD .dynamic

end ViewLint
