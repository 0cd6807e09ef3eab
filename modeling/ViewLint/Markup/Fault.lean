import ViewLint.Diagnostic.Basic
import ViewLint.Location.Index
import ViewLint.Markup.Token
import ViewLint.Text.Cursor

/-!
# Malformed markup

Reading a view stops at the first construct that is not as it should be.  A fault says what
was expected there, what was found, and in which construct.

## Main definitions

* `Expected`, `Found`, `Construct` — the three parts of a fault, each with its wording.
* `Fault` — a fault and its place.
* `Source` — a view as it is being read.
* `Reading` — reading steps that move a cursor or stop with a fault.
-/

namespace ViewLint.Markup

open Text

/-- What should have stood at a place. -/
inductive Expected where
  /-- The given characters. -/
  | literal (text : String)
  /-- The quote that was opened. -/
  | closingQuote (quote : Char)
  | tagName
  | attributeName
  | attributeValue
  | identifier
  | string
  | binding
  | endOfDirective
  deriving DecidableEq, Repr

/-- The wording of what was expected. -/
def Expected.text : Expected → String
  | .literal text => "\"" ++ text ++ "\""
  | .closingQuote quote => .ofList [quote]
  | .tagName => "tag name"
  | .attributeName => "attribute name"
  | .attributeValue => "attribute value"
  | .identifier => "identifier"
  | .string => "string"
  | .binding => "binding"
  | .endOfDirective => "end of directive"

/-- What stood there instead. -/
inductive Found where
  | char (c : Char)
  | endOfInput
  | endOfDirective
  deriving DecidableEq, Repr

/-- The wording of what was found. -/
def Found.text : Found → String
  | .char c => .ofList [c]
  | .endOfInput => "end of input"
  | .endOfDirective => "end of directive"

/-- The number of characters that what was found covers. -/
def Found.width : Found → Nat
  | .char _ => 1
  | _ => 0

/-- The construct that is malformed. -/
inductive Construct where
  | cdata
  | declaration
  | instruction
  | comment
  | endTag
  | startTag
  | openStartTag
  | openValue
  | directive
  deriving DecidableEq, Repr

/-- The wording of a construct. -/
def Construct.text : Construct → String
  | .cdata => "unterminated CDATA section"
  | .declaration => "unterminated declaration"
  | .instruction => "unterminated processing instruction"
  | .comment => "unterminated comment"
  | .endTag => "end tag"
  | .startTag => "start tag"
  | .openStartTag => "unterminated start tag"
  | .openValue => "unterminated attribute value"
  | .directive => "directive"

/-- Why reading stops, and at which character. -/
structure Fault where
  place : Nat
  expected : Expected
  found : Found
  construct : Construct
  deriving DecidableEq, Repr

/-- A view as it is being read. -/
structure Source where
  file : String
  text : List Char
  index : TextIndex text
  dialect : Dialect
  /-- The attributes whose values are bindings. -/
  attributes : List String

namespace Source

/-- The place of the characters from number `i` to number `j`. -/
def location (s : Source) (i j : Nat) : Location := s.index.location i j

/-- The name that the characters from number `i` to number `j` spell. -/
def ident (s : Source) (i j : Nat) : Ident := ⟨.ofList (s.index.slice i j), s.location i j⟩

/-- The diagnostic that a fault makes. -/
def diagnostic (s : Source) (f : Fault) : Diagnostic :=
  .ofKind .malformedMarkup s.file (some (s.location f.place (f.place + f.found.width)))
    [f.expected.text, f.found.text, f.construct.text]

end Source

/-- A step that reads at a cursor: it answers and moves on, or stops with a fault. -/
abbrev Reading (α : Type) : Type := StateT Cursor (Except Fault) α

/-- Stops at the cursor; at its end, `ending` is what was found. -/
def stopAt {α : Type} (c : Cursor) (expected : Expected) (ending : Found)
    (construct : Construct) : Except Fault α :=
  .error ⟨c.pos, expected, (c.rest.head?.map Found.char).getD ending, construct⟩

end ViewLint.Markup
