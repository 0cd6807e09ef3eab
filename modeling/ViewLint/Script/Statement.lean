import ViewLint.Script.Expression

/-!
# Statements

The statements in the bodies of functions.

## Main definitions

* `declarations` — variables with their types and initialisers.
* `forStatement` — the three kinds of counted and iterated loops.
* `statement` — any statement.
-/

namespace ViewLint.Script

open ViewLint.Script.Parser

/-- The variables that a declaration declares: how many they are, and whether one of them
lacks an initialiser that it needs outside a loop over values. -/
def declarations (g : Rules) (m : Mode) (isConst : Bool) : Parser (Nat × Bool) := do
  let one : Parser Bool := do
    let destructures ← atAny ["[", braceOpen]
    g.pattern m
    if !(← lineEnded) then
      let _ ← eat "!"
    let _ ← annotation g m
    let initialised ← initialiser g m
    return (isConst || destructures) && !initialised
  let step (s : Nat × Bool) : Parser ((Nat × Bool) ⊕ (Nat × Bool)) := do
    let lacks ← one
    let s := (s.1 + 1, s.2 || lacks)
    if ← eat "," then return .inl s else return .inr s
  iterate step (0, false)

/-- Whether the word `let` at hand begins a declaration. -/
def atLet : Parser Bool := do
  let (next, _) ← following
  let binds := match next with
    | .word w _ => !reservedWords.contains w
    | .symbol s => s == "[" || s == braceOpen
    | _ => false
  return (← at? "let") && binds

/-- Whether a declaration of variables is at hand. -/
def atDeclaration : Parser Bool := do
  return (← atAny ["var", "const"]) || (← atLet)

/-- A condition in parentheses. -/
def condition (g : Rules) (m : Mode) : Parser Unit :=
  enclosed "(" ")" do
    let _ ← expression g m.inside

/-! ### Loops -/

/-- What follows the first part of a counted loop, from the first semicolon on. -/
def countedRest (g : Rules) (m : Mode) : Parser Unit := do
  expect ";"
  if !(← at? ";") then
    let _ ← expression g m
  expect ";"
  if !(← at? ")") then
    let _ ← expression g m

/-- What follows the variables of a loop over values; the answer is no if the loop is a
counted one. -/
def iteratedRest (g : Rules) (m : Mode) : Parser Bool := do
  if ← eat "of" then
    let _ ← g.assignment m true
    return true
  else if ← eat "in" then
    let _ ← expression g m
    return true
  else return false

/-- A loop by the word `for`.  What takes the members of a sequence may not be called
`async`. -/
def forStatement (g : Rules) (m : Mode) : Parser Unit := do
  expect "for"
  let isAwait ← eat "await"
  require (!isAwait || m.awaits)
  enclosed "(" ")" do
    let head := { m with allowIn := false }
    if ← at? ";" then
      require !isAwait
      countedRest g m
    else if ← atDeclaration then
      let isConst ← at? "const"
      advance
      let (count, lacks) ← declarations g head isConst
      if count == 1 && (← atAny ["of", "in"]) then
        let _ ← iteratedRest g m
      else
        require (!isAwait && !lacks)
        countedRest g m
    else
      let named := (← at? "async") && isSymbol "of" (← following).1
      let left ← expression g head
      if ← atAny ["of", "in"] then
        require !(named && !isAwait && (← at? "of"))
        require left.isTarget
        settle left.initialised
        let _ ← iteratedRest g m
      else
        require !isAwait
        countedRest g m
  g.statement m true

/-! ### Other statements -/

/-- The cases of a choice, in braces. -/
def cases (g : Rules) (m : Mode) : Parser Unit :=
  enclosed braceOpen braceClose do
    let step (started : Bool) : Parser (Bool ⊕ Unit) := do
      if ← at? braceClose then return .inr ()
      else if ← eat "case" then
        let _ ← expression g m
        expect ":"
        return .inl true
      else if ← eat "default" then
        expect ":"
        return .inl true
      else
        require started
        g.statement m false
        return .inl true
    iterate step false

/-- A block whose failures are handled. -/
def tryStatement (g : Rules) (m : Mode) : Parser Unit := do
  expect "try"
  block g m
  let caught ← eat "catch"
  if caught then
    if ← at? "(" then
      enclosed "(" ")" do
        g.pattern m
        let _ ← annotation g m
    block g m
  let finished ← eat "finally"
  if finished then block g m
  require (caught || finished)

/-- A jump, with the label it goes to if there is one. -/
def jump (m : Mode) : Parser Unit := do
  advance
  match ← peek with
  | .word w _ => if isIdentifier m w && !(← lineEnded) then advance
  | _ => pure ()
  semicolon

/-- A declaration of a function, from the word `function` on. -/
def functionDeclaration (g : Rules) (m : Mode) (isAsync single : Bool) : Parser Unit := do
  expect "function"
  let isGenerator ← eat "*"
  require !(single && (isAsync || isGenerator))
  let _ ← identifier m
  let _ ← declaredRest g (.function isAsync isGenerator)

/-- The names that an enumeration declares. -/
def enumeration (g : Rules) (m : Mode) : Parser Unit := do
  expect "enum"
  let _ ← identifier m
  enclosed braceOpen braceClose do
    let one : Parser Unit := do
      let _ ← propertyKey g m
      let _ ← initialiser g m.inside
    let _ ← separated braceClose one

/-- The name of an interface, what it extends, and its members. -/
def interface (g : Rules) (m : Mode) : Parser Unit := do
  expect "interface"
  let _ ← identifier m
  typeParameters g m
  if ← eat "extends" then
    let step (_ : Unit) : Parser (Unit ⊕ Unit) := do
      typeName g m
      if ← eat "," then return .inl () else return .inr ()
    iterate step ()
  typeMembers g m

/-- A name for a type. -/
def typeAlias (g : Rules) (m : Mode) : Parser Unit := do
  expect "type"
  let _ ← identifier m
  typeParameters g m
  expect "="
  g.type m
  semicolon

/-- An expression as a statement, or a statement with a label. -/
def simpleStatement (g : Rules) (m : Mode) : Parser Unit := do
  let labelled : Bool := match ← peek with
    | .word w _ => isIdentifier m w
    | _ => false
  if labelled && isSymbol ":" (← following).1 then
    advance
    advance
    g.statement m true
  else
    let _ ← expression g m
    semicolon

/-- A statement.  Declarations that only a list of statements can hold are refused where a
single statement stands. -/
def statement (g : Rules) (m : Mode) (single : Bool) : Parser Unit := do
  let r ← look
  let (next, ended) ← following
  let nextNames := match next with
    | .word w _ => !reservedWords.contains w && !ended
    | _ => false
  match r.lexeme with
  | .symbol "\x7b" => block g m
  | .symbol ";" => advance
  | .symbol "@" =>
    require !single
    decorators g m
    classRest g m
  | .word "if" false =>
    advance
    condition g m
    g.statement m true
    if ← eat "else" then g.statement m true
  | .word "for" false => forStatement g m
  | .word "while" false =>
    advance
    condition g m
    g.statement m true
  | .word "do" false =>
    advance
    g.statement m true
    expect "while"
    condition g m
    let _ ← eat ";"
  | .word "with" false =>
    advance
    condition g m
    g.statement m true
  | .word "switch" false =>
    advance
    condition g m
    cases g m
  | .word "try" false => tryStatement g m
  | .word "throw" false =>
    advance
    require !(← lineEnded)
    let _ ← expression g m
    semicolon
  | .word "return" false =>
    require m.returns
    advance
    let s ← look
    if !(s.ended || isSymbol ";" s.lexeme || isSymbol braceClose s.lexeme || s.lexeme == .done) then
      let _ ← expression g m
    semicolon
  | .word "break" false => jump m
  | .word "continue" false => jump m
  | .word "debugger" false =>
    advance
    semicolon
  | .word "function" false => functionDeclaration g m false single
  | .word "class" false =>
    require !single
    classRest g m
  | .word "const" false =>
    require !single
    advance
    if ← at? "enum" then enumeration g m
    else
      let (_, lacks) ← declarations g m true
      require !lacks
      semicolon
  | .word "var" false =>
    advance
    let (_, lacks) ← declarations g m false
    require !lacks
    semicolon
  | .word "enum" false => enumeration g m
  | .word w false =>
    if w == "async" && isSymbol "function" next && !ended then
      advance
      functionDeclaration g m true single
    else if ← atLet then
      require !single
      advance
      let (_, lacks) ← declarations g m false
      require !lacks
      semicolon
    else if w == "abstract" && isSymbol "class" next && !ended then
      require !single
      advance
      classRest g m
    else if w == "type" && nextNames then typeAlias g m
    else if w == "interface" && nextNames then interface g m
    else simpleStatement g m
  | _ => simpleStatement g m

end ViewLint.Script
