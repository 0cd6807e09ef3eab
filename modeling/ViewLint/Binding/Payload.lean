import ViewLint.Diagnostic.Basic
import ViewLint.Markup.Token
import ViewLint.Script.Expr

/-!
# Bindings of a payload

The text of a binding attribute is the inside of an object literal.  It is read between
parentheses and braces, by a parser that is given (`ScriptParser`), and every member of the
literal becomes one binding: its key names the handler, its value is the expression.  The
expression is kept as text.

## Main definitions

* `ParsedBinding` — a handler with its expression.
* `Alias` — the name of the loop variable of a `foreach` binding.
* `PayloadError` — why a payload has no bindings, with `PayloadError.message`.
* `parsePayload` — the bindings of a payload.
-/

namespace ViewLint

open Text Script

/-- The text of a value, with its place. -/
structure ExpressionText where
  text : String
  location : Location
  deriving DecidableEq, Repr, Inhabited

/-- The name of the loop variable that a `foreach` binding gives. -/
inductive Alias where
  | literal (name : String)
  /-- There is one, but it is not a string. -/
  | undeterminable
  deriving DecidableEq, Repr, Inhabited

/-- One binding of a payload. -/
structure ParsedBinding where
  handler : Ident
  expression : ExpressionText
  itemAlias : Option Alias
  deriving DecidableEq, Repr, Inhabited

/-- Why a payload has no bindings. -/
inductive PayloadError where
  /-- The text is not an expression between parentheses and braces; the parser may say why. -/
  | malformed (reason : Option String)
  /-- The expression is not an object literal. -/
  | notAList
  /-- An object is spread into the literal. -/
  | spread
  /-- A key is an expression in brackets. -/
  | computed
  /-- A key is a number. -/
  | badName
  deriving DecidableEq, Repr, Inhabited

/-- The wording of an error. -/
def PayloadError.message : PayloadError → String
  | .malformed reason => reason.getD "invalid binding"
  | .notAList => "binding must be a list of 'handler: value' pairs"
  | .spread => "spread is not allowed in a binding"
  | .computed => "computed binding names are not allowed"
  | .badName => "binding names must be identifiers or strings"

/-- The handler whose value may name a loop variable. -/
def foreachHandler : String := "foreach"

/-! ### The literal around a payload -/

/-- The characters that stand before a payload when it is read. -/
def payloadStart : List Char := ['(', '\x7b']

/-- The characters that stand behind a payload when it is read. -/
def payloadStop : List Char := ['\x7d', ')']

/-- A place of the text that is read, as a place of the payload. -/
def unwrapPlace (t : List Char) (place : Nat) : Nat :=
  min (place - payloadStart.length) t.length

/-- The characters of a payload that a stretch of the text that is read covers. -/
def unwrapSpan (t : List Char) (start stop : Nat) : Nat × Nat :=
  let i := unwrapPlace t start
  (i, max i (unwrapPlace t stop))

/-- The place of a stretch of the text that is read. -/
def payloadLocation (p : Payload) (start stop : Nat) : Location :=
  let t := p.text.toList
  let (i, j) := unwrapSpan t start stop
  p.location.relative t (bytes (t.take i)) (bytes (t.take j))

/-- A stretch of the text that is read. -/
def payloadText (p : Payload) (start stop : Nat) : String :=
  let t := p.text.toList
  let (i, j) := unwrapSpan t start stop
  .ofList ((t.take j).drop i)

/-- The object literal inside all parentheses. -/
def objectMembers? : Expr → Option (List Property)
  | .paren e => objectMembers? e
  | .object properties _ => some properties
  | _ => none

/-! ### Members as bindings -/

/-- Whether a key is the name of the loop variable. -/
def isAliasKey (key : Key) : Bool :=
  match key.label, key.computed with
  | .name w, false => w == "as"
  | .quote w, _ => w == "as"
  | _, _ => false

/-- What a member says about the loop variable. -/
def memberAlias? : Property → Option Alias
  | .spread _ => none
  | .entry key value _ _ =>
    if isAliasKey key then
      match value with
      | .quote v => some (.literal v)
      | _ => some .undeterminable
    else none
  | .shorthand key _ => if isAliasKey key then some .undeterminable else none
  | .method key _ _ => if isAliasKey key then some .undeterminable else none

/-- What the value of a `foreach` binding says about its loop variable: the first member
that names it decides. -/
def foreachAlias? : Expr → Option Alias
  | .object properties _ => properties.findSome? memberAlias?
  | _ => none

/-- The handler that a key names. -/
def keyHandler (p : Payload) (key : Key) : Except PayloadError Ident :=
  if key.computed then .error .computed
  else
    match key.label with
    | .name w => .ok ⟨w, payloadLocation p key.start key.stop⟩
    | .quote w => .ok ⟨w, payloadLocation p (key.start + 1) (key.stop - 1)⟩
    | .other => .error .badName

/-- The binding with a given key, value and place of the value. -/
def bindingOf (p : Payload) (key : Key) (value : Expr) (start stop : Nat) :
    Except PayloadError ParsedBinding := do
  let handler ← keyHandler p key
  return {
    handler := handler
    expression := ⟨payloadText p start stop, payloadLocation p start stop⟩
    itemAlias := if handler.value == foreachHandler then foreachAlias? value else none }

/-- A member of the literal as a binding. -/
def memberBinding (p : Payload) : Property → Except PayloadError ParsedBinding
  | .spread _ => .error .spread
  | .entry key value start stop => bindingOf p key value start stop
  | .shorthand key _ => bindingOf p key .name key.start key.stop
  | .method key start stop => bindingOf p key .other start stop

variable [ScriptParser]

/-- The bindings of a payload, or the first error in it. -/
def payloadBindings (p : Payload) : Except PayloadError (List ParsedBinding) :=
  match ScriptParser.expression (payloadStart ++ p.text.toList ++ payloadStop) with
  | .error reason => .error (.malformed reason)
  | .ok e =>
    match objectMembers? e with
    | none => .error .notAList
    | some members => members.mapM (memberBinding p)

/-- The bindings of a payload, or a diagnostic on the whole payload. -/
def parsePayload (file : String) (p : Payload) : Except Diagnostic (List ParsedBinding) :=
  (payloadBindings p).mapError fun e => .ofKind .scriptError file (some p.location) [e.message]

end ViewLint
