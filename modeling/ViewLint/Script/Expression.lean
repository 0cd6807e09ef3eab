import ViewLint.Script.Function

/-!
# Expressions

The expressions of the script language, from the simplest to assignments.

## Main definitions

* `primary`, `access` — operands, and the accesses and calls behind them.
* `binary` — operands joined by operators, by their strength.
* `arrow` — arrow functions, told from parentheses by what stands in and behind them.
* `assignment` — an expression without commas.
-/

namespace ViewLint.Script

open ViewLint.Script.Parser

/-! ### Templates and literals -/

/-- A template.  Only a template behind a tag may contain malformed escapes. -/
def template (g : Rules) (m : Mode) (tagged : Bool) : Parser Expr := do
  let step (_ : Unit) : Parser (Unit ⊕ Unit) := do
    match ← peek with
    | .template more valid =>
      require (tagged || valid)
      advance
      if more then
        let _ ← expression g m.inside
        require (← at? braceClose)
        rescan fun t => lexTemplate (t.drop 1)
        return .inl ()
      else return .inr ()
    | _ => reject
  iterate step ()
  return .other

/-- An array literal. -/
def array (g : Rules) (m : Mode) : Parser Expr :=
  enclosed "[" "]" do
    let item : Parser Expr := do
      if ← at? "," then return .hole
      if ← eat "..." then return .spread (← g.assignment m.inside true)
      g.assignment m.inside true
    let (found, trailing) ← separated "]" item
    return .array found trailing

/-- A method of an object from its parameters on. -/
def method (g : Rules) (m : Mode) (key : Key) : Parser Property := do
  let start ← here
  let _ ← functionRest g m
  return .method key start (← behind)

/-- An accessor of an object from its key on. -/
def accessor (g : Rules) (m : Mode) (allowed : Parameters → Bool) : Parser Property := do
  let key ← propertyKey g m
  let start ← here
  let found ← functionRest g (.function false false)
  require (allowed found)
  return .method key start (← behind)

/-- A member of an object from its key on, which has been read. -/
def memberRest (g : Rules) (m : Mode) (key : Key) : Parser Property := do
  if ← atAny ["(", "<"] then method g (.function false false) key
  else if ← eat ":" then
    let start ← here
    let value ← g.assignment m true
    return .entry key value start (← behind)
  else
    match key.computed, key.label with
    | false, .name w =>
      require (isIdentifier m w)
      let initialised ← initialiser g m
      if initialised then postpone key.start
      return .shorthand key initialised
    | _, _ => reject

/-- A member of an object literal. -/
def property (g : Rules) (m : Mode) : Parser Property := do
  if ← eat "..." then return .spread (← g.assignment m true)
  let (next, ended) ← following
  if (← at? "get") && beginsName next then
    advance
    accessor g m isGetter
  else if (← at? "set") && beginsName next then
    advance
    accessor g m isSetter
  else
    let isAsync := (← at? "async") && (beginsName next || isSymbol "*" next) && !ended
    if isAsync then advance
    let isGenerator ← eat "*"
    let key ← propertyKey g m
    if isAsync || isGenerator then method g (.function isAsync isGenerator) key
    else memberRest g m key

/-- An object literal. -/
def object (g : Rules) (m : Mode) : Parser Expr :=
  enclosed braceOpen braceClose do
    let (found, trailing) ← separated braceClose (property g m.inside)
    return .object found trailing

/-- An expression in parentheses. -/
def parenthesised (g : Rules) (m : Mode) : Parser Expr :=
  enclosed "(" ")" do
    let e ← expression g m.inside
    return .paren e

/-! ### Operands -/

/-- A call by the word `import`, or what it says of the module. -/
def importExpression (g : Rules) (m : Mode) : Parser Expr := do
  expect "import"
  if ← eat "." then
    expect "meta"
    return .other
  enclosed "(" ")" do
    let _ ← g.assignment m.inside true
    if (← eat ",") && !(← at? ")") then
      let _ ← g.assignment m.inside true
      let _ ← eat ","
  return .importCall

/-- An operand without accesses. -/
def primary (g : Rules) (m : Mode) : Parser Expr := do
  match ← peek with
  | .number _ =>
    advance
    return .other
  | .quote v =>
    advance
    return .quote v
  | .template _ _ => template g m false
  | .symbol "(" => parenthesised g m
  | .symbol "[" => array g m
  | .symbol "\x7b" => object g m
  | .symbol "/" => slash
  | .symbol "/=" => slash
  | .symbol "@" =>
    decorators g m
    classRest g m
    return .other
  | .word "function" false => functionExpression g false
  | .word "class" false =>
    classRest g m
    return .other
  | .word "new" false => g.creation m
  | .word "import" false => importExpression g m
  | .word "super" false =>
    advance
    require (← atAny [".", "(", "["])
    return .other
  | .word w escaped =>
    if ["this", "null", "true", "false"].contains w then
      require !escaped
      advance
      return .other
    else
      let (next, ended) ← following
      if w == "async" && !escaped && isSymbol "function" next && !ended then
        advance
        functionExpression g true
      else
        let _ ← identifier m
        return .name
  | _ => reject
where
  /-- A regular expression, at its opening slash. -/
  slash : Parser Expr := do
    rescan fun t => (regex (t.drop 1)).map fun r => (.regex, r)
    advance
    return .other

/-! ### Accesses and calls -/

/-- The strength of each operator that joins two operands. -/
def strength? : Lexeme → Option Nat
  | .symbol s =>
    if s == "??" then some 1
    else if s == "||" then some 2
    else if s == "&&" then some 3
    else if s == "|" then some 4
    else if s == "^" then some 5
    else if s == "&" then some 6
    else if ["==", "!=", "===", "!=="].contains s then some 7
    else if ["<", ">", "<=", ">="].contains s then some 8
    else if ["<<", ">>", ">>>"].contains s then some 9
    else if ["+", "-"].contains s then some 10
    else if ["*", "/", "%"].contains s then some 11
    else if s == "**" then some 12
    else none
  | .word w false => if ["instanceof", "in", "as", "satisfies"].contains w then some 8 else none
  | _ => none

/-- Whether a lexeme can begin an expression. -/
def beginsExpression : Lexeme → Bool
  | .word w _ =>
    !reservedWords.contains w ||
      ["this", "super", "null", "true", "false", "function", "class", "new", "delete", "typeof",
        "void", "import"].contains w
  | .privateWord => true
  | .number _ => true
  | .quote _ => true
  | .template _ _ => true
  | .regex => true
  | .symbol s =>
    ["(", "[", braceOpen, "++", "--", "+", "-", "~", "!", "/", "/=", "<", "@"].contains s
  | .done => false

/-- Whether the closing angle bracket at hand begins the operator `>=`. -/
def atLeast : Parser Bool := do
  let found ← lookahead do
    rescan fun t => (angle t).map fun (s, r) => (.symbol s, r)
    expect ">="
  return found.isSome

/-- Type arguments behind an operand.  They are taken as such only if the closing bracket
stands alone, and what follows could not be the right operand of a comparison. -/
def callArguments (g : Rules) (m : Mode) : Parser Unit := do
  enclosed "<" ">" do
    let (found, _) ← separated ">" (g.type m)
    require (!found.isEmpty && !(← atLeast))
  let r ← look
  match r.lexeme with
  | .template _ _ => pure ()
  | .symbol "(" => pure ()
  | l =>
    require (["<", ">", "+", "-"].all (!isSymbol · l))
    require (r.ended || (strength? l).isSome || !beginsExpression l)

/-- The name of a member behind a dot. -/
def memberName : Parser Unit := do
  match ← peek with
  | .privateWord => advance
  | _ =>
    let _ ← anyWord

/-- The accesses behind an operand, and the calls if `calls` is set.  The second component of
the state tells whether they form an optional chain. -/
def access (g : Rules) (m : Mode) (calls : Bool) (start : Expr) : Parser Expr := do
  let index : Parser Unit :=
    enclosed "[" "]" do
      let _ ← expression g m.inside
  let step (s : Expr × Bool) : Parser ((Expr × Bool) ⊕ Expr) := do
    let (e, inChain) := s
    let r ← look
    match r.lexeme with
    | .symbol "." =>
      advance
      memberName
      return .inl (.member, inChain)
    | .symbol "?." =>
      require calls
      advance
      match ← peek with
      | .symbol "(" => arguments g m
      | .symbol "[" => index
      | .symbol "<" =>
        typeArguments g m
        arguments g m
      | _ => memberName
      return .inl (.other, true)
    | .symbol "[" =>
      index
      return .inl (.member, inChain)
    | .symbol "!" =>
      if r.ended then return finish e inChain
      advance
      return .inl (.typed e, inChain)
    | .template _ _ =>
      require !inChain
      let _ ← template g m true
      return .inl (.other, inChain)
    | .symbol "<" =>
      match ← attempt (callArguments g m) with
      | some _ => return .inl (.instantiated e, inChain)
      | none => return finish e inChain
    | .symbol "(" =>
      if !calls then return finish e inChain
      arguments g m
      return .inl (.other, inChain)
    | _ => return finish e inChain
  iterate step (start, false)
where
  /-- The operand with all its accesses. -/
  finish (e : Expr) (inChain : Bool) : (Expr × Bool) ⊕ Expr :=
    .inr (if inChain then .chain else e)

/-- An operand with its accesses and calls. -/
def operand (g : Rules) (m : Mode) : Parser Expr := do
  access g m true (← primary g m)

/-- The creation of an object by the word `new`, or what `new.target` denotes. -/
def creation (g : Rules) (m : Mode) : Parser Expr := do
  expect "new"
  if ← eat "." then
    expect "target"
    return .other
  match ← access g m false (← primary g m) with
  | .importCall => reject
  | _ =>
    if ← at? "(" then arguments g m
    return .other

/-- The words and signs that may precede an operand. -/
def signs : List String := ["+", "-", "~", "!", "delete", "typeof", "void"]

/-- An operand with an increment on one of its sides. -/
def update (g : Rules) (m : Mode) : Parser Expr := do
  if ← atAny ["++", "--"] then
    advance
    require (← g.unary m).isSimpleTarget
    return .other
  let e ← operand g m
  if (← atAny ["++", "--"]) && !(← lineEnded) then
    require e.isSimpleTarget
    advance
    return .other
  return e

/-- An operand with its signs. -/
def unary (g : Rules) (m : Mode) : Parser Expr := do
  if ← atAny signs then
    advance
    let _ ← g.unary m
    return .signed
  else if m.awaits && (← at? "await") then
    advance
    let _ ← g.unary m
    return .signed
  else if ← at? "<" then
    enclosed "<" ">" (g.type m)
    return .typed (← g.unary m)
  else update g m

/-! ### Operators -/

/-- What two operands joined by an operator are, if the operator can join them: a power may
not begin with a sign, and `??` does not mix with the other logical operators. -/
def join? (operator : Lexeme) (left right : Expr) : Option Expr :=
  if isSymbol "??" operator then
    match left, right with
    | _, .joined => none
    | _, .coalesced => some .coalesced
    | .joined, _ => none
    | _, _ => some .coalesced
  else if isSymbol "||" operator || isSymbol "&&" operator then some .joined
  else if isSymbol "**" operator then
    match left with
    | .signed => none
    | _ => some .other
  else some .other

/-- The operand at the left end of a chain of operators. -/
def leftmost (g : Rules) (m : Mode) : Parser Expr := do
  match ← peek with
  | .privateWord =>
    require m.allowIn
    advance
    expect "in"
    let _ ← g.binary m 8
    return .other
  | _ => unary g m

/-- Operands joined by operators that bind tighter than `least`; only a power groups to the
right. -/
def binary (g : Rules) (m : Mode) (least : Nat) : Parser Expr := do
  let step (left : Expr) : Parser (Expr ⊕ Expr) := do
    if ← at? ">" then rescan fun t => (angle t).map fun (s, r) => (.symbol s, r)
    let r ← look
    match strength? r.lexeme with
    | none => return .inr left
    | some s =>
      let stops := if s == 12 then s < least else s ≤ least
      if stops || (isSymbol "in" r.lexeme && !m.allowIn) then return .inr left
      if isSymbol "as" r.lexeme || isSymbol "satisfies" r.lexeme then
        if r.ended then return .inr left
        advance
        g.type m
        return .inl (.typed left)
      advance
      let right ← g.binary m s
      match join? r.lexeme left right with
      | some e => return .inl e
      | none => reject
  iterate step (← leftmost g m)

/-! ### Arrow functions -/

/-- Whether an arrow function is at hand, as far as the first lexemes tell. -/
inductive Guess where
  | no
  | maybe
  | yes
  deriving DecidableEq, Repr

/-- What the lexemes behind an opening parenthesis tell. -/
def guessParenthesis : Parser Guess := do
  let second ← peek
  match second with
  | .symbol ")" =>
    advance
    if ← at? ":" then return .maybe
    if ← atAny ["=>", braceOpen] then return .yes
    return .no
  | .symbol "[" => return .maybe
  | .symbol "\x7b" => return .maybe
  | .symbol "..." => return .maybe
  | .word w _ =>
    if reservedWords.contains w && w != "this" then return .no
    advance
    match ← peek with
    | .symbol ":" => return .yes
    | .symbol "?" =>
      advance
      if ← atAny [":", ",", "=", ")"] then return .yes
      return .no
    | .symbol s => return if [",", "=", ")"].contains s then .maybe else .no
    | _ => return .no
  | _ => return .no

/-- Whether an arrow function with parentheses is at hand. -/
def guessArrow : Parser Guess := do
  let found ← lookahead do
    if ← eat "async" then
      if ← lineEnded then return .no
    if ← eat "(" then guessParenthesis
    else if ← eat "<" then
      match ← peek with
      | .word w _ =>
        return if !reservedWords.contains w || w == "const" then .maybe else .no
      | _ => return .no
    else return .no
  return found.getD .no

/-- The body of an arrow function. -/
def arrowBody (g : Rules) (m : Mode) (isAsync typed : Bool) : Parser Unit := do
  if ← at? braceOpen then block g (.function isAsync false)
  else
    let _ ← g.assignment { m with awaits := isAsync, yields := false } typed

/-- The head of an arrow function up to its arrow, which has no receiver; the answer tells
whether the function is asynchronous and whether it states the type of its result. -/
def arrowHead (g : Rules) (m : Mode) : Parser (Bool × Bool) := do
  let isAsync ← eat "async"
  let inner := { m with awaits := m.awaits || isAsync }
  typeParameters g inner
  let found ← parameters g inner
  require !found.receiver
  let stated ← returnType g inner
  require !(← lineEnded)
  expect "=>"
  return (isAsync, stated)

/-- An arrow function that other readings of the same text compete with.  In the middle of a
conditional a colon may end the expression, so there the type of a result counts only if a
further colon follows. -/
def possibleArrow (g : Rules) (m : Mode) (typed : Bool) : Parser Unit := do
  let (isAsync, stated) ← arrowHead g m
  arrowBody g m isAsync typed
  if stated && !typed then require (← at? ":")

/-- An arrow function with parentheses, if there is one. -/
def arrow (g : Rules) (m : Mode) (typed : Bool) : Parser Bool := do
  match ← guessArrow with
  | .no => return false
  | .yes =>
    let (isAsync, _) ← arrowHead g m
    arrowBody g m isAsync true
    return true
  | .maybe =>
    match ← attempt (possibleArrow g m typed) with
    | some _ => return true
    | none => return false

/-- Whether an asynchronous arrow function without parentheses is at hand. -/
def atAsyncArrow : Parser Bool := do
  let found ← lookahead do
    expect "async"
    require !(← lineEnded)
    match ← peek with
    | .word w _ => require !reservedWords.contains w
    | _ => reject
    advance
    expect "=>"
  return found.isSome

/-! ### Assignments -/

/-- The operators that assign. -/
def assignmentOperators : List String :=
  ["=", "+=", "-=", "*=", "/=", "%=", "**=", "<<=", ">>=", ">>>=", "&=", "|=", "^=", "&&=",
    "||=", "??="]

/-- The word `yield` and the expression behind it, if there is one. -/
def yielded (g : Rules) (m : Mode) : Parser Expr := do
  expect "yield"
  if !(← lineEnded) then
    let delegates ← eat "*"
    let stops := (← atAny [";", braceClose, ")", "]", ":", ",", "in"]) || (← peek) == .done
    if delegates || !stops then
      let _ ← g.assignment m true
  return .other

/-- What follows an operand: an arrow, an assignment, a conditional, or nothing. -/
def assignmentRest (g : Rules) (m : Mode) (typed : Bool) (left : Expr) : Parser Expr := do
  let l ← peek
  let isName := match left with
    | .name => true
    | _ => false
  if isName && isSymbol "=>" l then
    require !(← lineEnded)
    advance
    arrowBody g m false typed
    return .other
  else if assignmentOperators.any (isSymbol · l) then
    let plain := isSymbol "=" l
    require (if plain then left.isTarget else left.isSimpleTarget)
    settle left.initialised
    advance
    let _ ← g.assignment m typed
    return .assign plain
  else if ← eat "?" then
    let _ ← g.assignment m.inside false
    expect ":"
    let _ ← g.assignment m typed
    return .other
  else return left

/-- An expression without commas. -/
def assignment (g : Rules) (m : Mode) (typed : Bool) : Parser Expr := do
  if m.yields && (← at? "yield") then yielded g m
  else if ← arrow g m typed then return .other
  else if ← atAsyncArrow then
    advance
    let _ ← identifier { m with awaits := true }
    require !(← lineEnded)
    expect "=>"
    arrowBody g m true typed
    return .other
  else
    let left ← binary g m 0
    assignmentRest g m typed left

end ViewLint.Script
