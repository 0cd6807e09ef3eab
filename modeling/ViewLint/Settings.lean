import ViewLint.Binding.Handlers
import ViewLint.Diagnostic.Kind
import ViewLint.Json
import ViewLint.Markup.Tokenize

/-!
# Settings of a run

What a user can choose: further binding attributes and handlers, the dialect, the module of
the context types, and the severity of diagnostics.  Settings are written in JSON, as an object
or as an array of the fields in order; every field may be left out.

## Main definitions

* `Settings` — the choices.
* `Settings.ofText?` — the settings that a text describes.
* `Settings.markup`, `Settings.registered` — what reading and resolving views depends on.
-/

namespace ViewLint

/-- What a user can choose. -/
structure Settings where
  /-- The attributes that hold bindings besides the default one. -/
  attributes : List String
  /-- The handlers that open contexts besides the standard ones. -/
  handlers : List String
  forceXml : Bool
  /-- The module that the context types come from. -/
  typeLibrary : String
  /-- Severities by the code or name of a diagnostic; no key occurs twice. -/
  severity : List (String × Severity)
  deriving DecidableEq, Repr

namespace Settings

/-- Nothing is chosen. -/
def default : Settings := ⟨[], [], false, "kolint/context", []⟩

instance : Inhabited Settings := ⟨default⟩

/-- What reading a view depends on. -/
def markup (s : Settings) : Markup.Options :=
  let attributes := s.attributes.foldl
    (fun known name => if known.contains name then known else known ++ [name])
    [Markup.defaultAttribute]
  ⟨attributes, s.forceXml⟩

/-- The handlers that are declared for every view. -/
def registered (s : Settings) : Handlers := .ofConfigured s.handlers

/-! ### Settings in JSON -/

/-- The fields of settings. -/
inductive Field where
  | attributes
  | handlers
  | forceXml
  | typeLibrary
  | severity
  deriving DecidableEq, Repr

/-- The fields in the order in which an array holds them. -/
def Field.all : List Field := [.attributes, .handlers, .forceXml, .typeLibrary, .severity]

/-- The name of a field. -/
def Field.name : Field → String
  | .attributes => "bindingAttributes"
  | .handlers => "contextHandlers"
  | .forceXml => "forceXml"
  | .typeLibrary => "typeLibrary"
  | .severity => "severity"

/-- The field of a name. -/
def Field.ofName? (name : String) : Option Field := all.find? (·.name == name)

/-- A severity: its word, or an object that has the word as its only name and nothing as the
value. -/
def readSeverity : Json → Option Severity
  | .string written => (Json.decode? written).bind Severity.ofWord?
  | .object [(written, .null)] => (Json.decode? written).bind Severity.ofWord?
  | _ => none

/-- Sets the severity of a key. -/
def setSeverity (known : List (String × Severity)) (key : String) (severity : Severity) :
    List (String × Severity) :=
  if known.any (·.1 == key) then
    known.map fun entry => if entry.1 == key then (key, severity) else entry
  else known ++ [(key, severity)]

/-- Severities by key; of a key that occurs twice the last one counts. -/
def readSeverities : Json → Option (List (String × Severity))
  | .object fields => fields.foldlM
    (fun known (written, v) => do
      return setSeverity known (← Json.decode? written) (← readSeverity v)) []
  | _ => none

/-- Sets one field. -/
def setField (s : Settings) (v : Json) : Field → Option Settings
  | .attributes => v.texts?.map fun names => { s with attributes := names }
  | .handlers => v.texts?.map fun names => { s with handlers := names }
  | .forceXml =>
    match v with
    | .bool b => some { s with forceXml := b }
    | _ => none
  | .typeLibrary => v.text?.map fun name => { s with typeLibrary := name }
  | .severity => (readSeverities v).map fun known => { s with severity := known }

/-- Sets named fields, each at most once.  Unknown names are passed over. -/
def setNamed (seen : List Field) (s : Settings) : List (List Char × Json) → Option Settings
  | [] => some s
  | (written, v) :: rest => do
    match Field.ofName? (← Json.decode? written) with
    | none => setNamed seen s rest
    | some field =>
      if field ∈ seen then none else setNamed (field :: seen) (← s.setField v field) rest

/-- Sets fields in order. -/
def setOrdered (s : Settings) : List Field → List Json → Option Settings
  | _, [] => some s
  | [], _ :: _ => none
  | field :: fields, v :: vs => do setOrdered (← s.setField v field) fields vs

/-- The settings that a value describes. -/
def ofJson? : Json → Option Settings
  | .object fields => setNamed [] default fields
  | .array items => setOrdered default Field.all items
  | _ => none

/-- The settings that a text describes. -/
def ofText? (text : String) : Option Settings := (Json.parse? text).bind ofJson?

/-- What is said of a text that describes no settings. -/
def invalidText : String := "invalid lint options"

end Settings

end ViewLint
