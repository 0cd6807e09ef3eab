import ViewLint.Script.Expr
import ViewLint.Script.Parser

/-!
# The recursive rules of the grammar

The grammar of scripts is written as one unfolding: every rule says what it reads in terms
of the rules in a record `Rules`, which stand for the same rules one level deeper.  The
module that ties the knot iterates the unfolding as often as the script is long, which no
nesting of a script can exceed.

## Main definitions

* `Mode` — the surroundings that decide how some words are read.
* `Rules` — the rules that the grammar refers to recursively.
* `identifier`, `anyWord`, `propertyKey` — names in their various places.
-/

namespace ViewLint.Script

/-- The surroundings that decide how some words are read. -/
structure Mode where
  /-- The word `in` is an operator. -/
  allowIn : Bool
  /-- The word `await` is an operator. -/
  awaits : Bool
  /-- The word `yield` is an operator. -/
  yields : Bool
  /-- The word `return` is a statement. -/
  returns : Bool
  deriving DecidableEq, Repr

namespace Mode

/-- The surroundings of an expression that stands alone in a module. -/
def toplevel : Mode := ⟨true, true, false, false⟩

/-- The body and the parameters of a function. -/
def function (isAsync isGenerator : Bool) : Mode := ⟨true, isAsync, isGenerator, true⟩

/-- The initialiser of a field of a class. -/
def field : Mode := ⟨true, false, false, false⟩

/-- The same surroundings inside brackets. -/
def inside (m : Mode) : Mode := { m with allowIn := true }

end Mode

/-- The rules that refer to each other through any depth of nesting. -/
structure Rules where
  /-- An expression without commas.  The flag tells whether an arrow function may state the
  type of its result. -/
  assignment : Mode → Bool → Parser Expr
  /-- Operands joined by operators that bind tighter than the given strength. -/
  binary : Mode → Nat → Parser Expr
  /-- An operand with its signs. -/
  unary : Mode → Parser Expr
  /-- An operand with its accesses and calls. -/
  operand : Mode → Parser Expr
  /-- The creation of an object by the word `new`. -/
  creation : Mode → Parser Expr
  /-- What a declaration binds: a name, or a pattern of names. -/
  pattern : Mode → Parser Unit
  /-- A statement.  The flag tells whether it stands alone, outside a list of statements. -/
  statement : Mode → Bool → Parser Unit
  /-- A type. -/
  type : Mode → Parser Unit
  /-- A type that binds tighter than unions. -/
  typeOperand : Mode → Parser Unit

/-- The rules that accept nothing. -/
def Rules.none : Rules where
  assignment _ _ := .reject
  binary _ _ := .reject
  unary _ := .reject
  operand _ := .reject
  creation _ := .reject
  pattern _ := .reject
  statement _ _ := .reject
  type _ := .reject
  typeOperand _ := .reject

open ViewLint.Script.Parser

/-! ### Names -/

/-- The words that never name anything. -/
def reservedWords : List String :=
  ["break", "case", "catch", "class", "const", "continue", "debugger", "default", "delete", "do",
    "else", "enum", "export", "extends", "false", "finally", "for", "function", "if", "import",
    "in", "instanceof", "new", "null", "return", "super", "switch", "this", "throw", "true",
    "try", "typeof", "var", "void", "while", "with"]

/-- Whether a word names something in the given surroundings. -/
def isIdentifier (m : Mode) (w : String) : Bool :=
  !reservedWords.contains w && !(w == "await" && m.awaits) && !(w == "yield" && m.yields)

/-- The name of a variable. -/
def identifier (m : Mode) : Parser String := do
  match ← peek with
  | .word w _ =>
    require (isIdentifier m w)
    advance
    return w
  | _ => reject

/-- Any word, reserved or not. -/
def anyWord : Parser String := do
  match ← peek with
  | .word w _ =>
    advance
    return w
  | _ => reject

/-- Whether a lexeme can begin the name of a member. -/
def beginsName : Lexeme → Bool
  | .word _ _ => true
  | .quote _ => true
  | .number _ => true
  | .privateWord => true
  | .symbol s => s == "["
  | _ => false

/-- The lexeme behind the one at hand, and whether a line ended between the two. -/
def following : Parser (Lexeme × Bool) := do
  let found ← lookahead do
    advance
    let r ← look
    return (r.lexeme, r.ended)
  return found.getD (.done, true)

/-- The key of a member of an object. -/
def propertyKey (g : Rules) (m : Mode) : Parser Key := do
  let start ← here
  match ← peek with
  | .word w _ =>
    advance
    return ⟨.name w, false, start, ← behind⟩
  | .quote v =>
    advance
    return ⟨.quote v, false, start, ← behind⟩
  | .number _ =>
    advance
    return ⟨.other, false, start, ← behind⟩
  | .symbol "[" =>
    advance
    let label := match ← g.assignment m.inside true with
      | .quote v => Label.quote v
      | _ => .other
    expect "]"
    return ⟨label, true, start, ← behind⟩
  | _ => reject

/-! ### The end of a statement -/

/-- The end of a statement: a semicolon, or a place where one may be left out. -/
def semicolon : Parser Unit := do
  if ← eat ";" then return ()
  let r ← look
  require (isSymbol braceClose r.lexeme || r.lexeme == .done || r.ended)

/-! ### Expressions with commas -/

/-- An expression, possibly several joined by commas. -/
def expression (g : Rules) (m : Mode) : Parser Expr := do
  let first ← g.assignment m true
  let step (e : Expr) : Parser (Expr ⊕ Expr) := do
    if ← eat "," then
      let _ ← g.assignment m true
      return .inl .other
    else return .inr e
  iterate step first

/-- An initialiser, if there is one. -/
def initialiser (g : Rules) (m : Mode) : Parser Bool := do
  if ← eat "=" then
    let _ ← g.assignment m true
    return true
  else return false

end ViewLint.Script
