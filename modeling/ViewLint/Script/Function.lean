import ViewLint.Script.Types

/-!
# Patterns, functions and classes

What declares names: the patterns that variables and parameters are bound by, the bodies of
functions, and the members of classes.

## Main definitions

* `pattern` — a name, or names taken out of an array or an object.
* `functionRest`, `functionExpression` — functions.
* `classRest` — classes, from the word `class` on.
-/

namespace ViewLint.Script

open ViewLint.Script.Parser

/-! ### Patterns -/

/-- An element of an array pattern; the answer tells whether it takes the rest. -/
def patternElement (g : Rules) (m : Mode) : Parser Bool := do
  if ← at? "," then return false
  if ← eat "..." then
    g.pattern m
    require (← at? "]")
    return true
  g.pattern m
  let _ ← initialiser g m.inside
  return false

/-- A member of an object pattern; the answer tells whether it takes the rest. -/
def patternMember (g : Rules) (m : Mode) : Parser Bool := do
  if ← eat "..." then
    let _ ← identifier m
    require (← at? braceClose)
    return true
  let key ← propertyKey g m
  if ← eat ":" then g.pattern m
  else
    match key.computed, key.label with
    | false, .name w => require (isIdentifier m w)
    | _, _ => reject
  let _ ← initialiser g m.inside
  return false

/-- What a declaration binds.  A comma may not follow the part that takes the rest. -/
def pattern (g : Rules) (m : Mode) : Parser Unit := do
  match ← peek with
  | .symbol "[" =>
    enclosed "[" "]" do
      let (found, trailing) ← separated "]" (patternElement g m)
      require !(trailing && found.any id)
  | .symbol "\x7b" =>
    enclosed braceOpen braceClose do
      let (found, trailing) ← separated braceClose (patternMember g m)
      require !(trailing && found.any id)
  | _ =>
    let _ ← identifier m

/-! ### Functions -/

/-- Statements up to a closing brace, which is left. -/
def statements (g : Rules) (m : Mode) : Parser Unit := do
  let step (_ : Unit) : Parser (Unit ⊕ Unit) := do
    if ← at? braceClose then return .inr ()
    g.statement m false
    return .inl ()
  iterate step ()

/-- Statements in braces. -/
def block (g : Rules) (m : Mode) : Parser Unit :=
  enclosed braceOpen braceClose (statements g m)

/-- A function from its parameters on.  The answer tells what the parameters are like. -/
def functionRest (g : Rules) (m : Mode) : Parser Parameters := do
  typeParameters g m
  let found ← parameters g m
  let _ ← returnType g m
  block g m
  return found

/-- A function from its parameters on, of which the body may be left out. -/
def declaredRest (g : Rules) (m : Mode) : Parser Parameters := do
  typeParameters g m
  let found ← parameters g m
  let _ ← returnType g m
  if ← at? braceOpen then block g m else semicolon
  return found

/-- A getter takes nothing. -/
def isGetter (p : Parameters) : Bool := p.count == 0

/-- A setter takes exactly one argument, without an initialiser. -/
def isSetter (p : Parameters) : Bool := p.count == 1 && !p.rest && !p.initialised

/-- A function as an expression, from the word `function` on. -/
def functionExpression (g : Rules) (isAsync : Bool) : Parser Expr := do
  expect "function"
  let isGenerator ← eat "*"
  let m := Mode.function isAsync isGenerator
  if !(← atAny ["(", "<"]) then
    let _ ← identifier m
  let _ ← functionRest g m
  return .other

/-- The arguments of a call, in parentheses. -/
def arguments (g : Rules) (m : Mode) : Parser Unit :=
  enclosed "(" ")" do
    let one : Parser Unit := do
      let _ ← eat "..."
      let _ ← g.assignment m.inside true
    let _ ← separated ")" one

/-! ### Classes -/

/-- The words that may precede a member of a class. -/
def memberModifiers : List String :=
  ["declare", "public", "private", "protected", "abstract", "static", "readonly", "override",
    "accessor"]

/-- Reads the words in front of a member of a class; the answer tells whether one of them
is `static`. -/
def modifiers : Parser Bool := do
  let step (isStatic : Bool) : Parser (Bool ⊕ Bool) := do
    if ← atAny memberModifiers then
      let atStatic ← at? "static"
      let (next, ended) ← following
      if (beginsName next || isSymbol "*" next) && (atStatic || !ended) then
        advance
        return .inl (isStatic || atStatic)
      else return .inr isStatic
    else return .inr isStatic
  iterate step false

/-- Decorators in front of a class or a member of one. -/
def decorators (g : Rules) (m : Mode) : Parser Unit := do
  let one : Parser Unit := do
    if ← at? "(" then
      enclosed "(" ")" do
        let _ ← expression g m.inside
    else
      let _ ← identifier m
      let names (_ : Unit) : Parser (Unit ⊕ Unit) := do
        if ← eat "." then
          match ← peek with
          | .privateWord => advance
          | _ =>
            let _ ← anyWord
          return .inl ()
        else return .inr ()
      iterate names ()
      if ← at? "(" then arguments g m
  let step (_ : Unit) : Parser (Unit ⊕ Unit) := do
    if ← eat "@" then
      one
      return .inl ()
    else return .inr ()
  iterate step ()

/-- The key of a member of a class, and its name if it has a plain one. -/
def memberKey (g : Rules) (m : Mode) : Parser (Option String) := do
  match ← peek with
  | .privateWord =>
    advance
    return none
  | _ =>
    let key ← propertyKey g m
    match key.computed, key.label with
    | false, .name w => return some w
    | false, .quote w => return some w
    | _, _ => return none

/-- A method of a class from its key on.  A constructor is an ordinary method, and no static
member is called `prototype`. -/
def classMethod (g : Rules) (isStatic isAsync isGenerator : Bool) (name : Option String) :
    Parser Unit := do
  require !(!isStatic && name == some "constructor" && (isAsync || isGenerator))
  require !(isStatic && name == some "prototype")
  let found ← declaredRest g (.function isAsync isGenerator)
  require !(!isStatic && name == some "constructor" && found.receiver)

/-- A field of a class from behind its key on. -/
def classField (g : Rules) (m : Mode) (isStatic : Bool) (name : Option String) :
    Parser Unit := do
  require !(name == some "constructor")
  require !(isStatic && name == some "prototype")
  let _ ← annotation g m
  let _ ← initialiser g .field
  semicolon

/-- A member of a class. -/
def classMember (g : Rules) (m : Mode) : Parser Unit := do
  if ← eat ";" then return ()
  decorators g m
  if (← at? "static") && isSymbol braceOpen (← following).1 then
    advance
    block g .field
  else
    let isStatic ← modifiers
    let (next, ended) ← following
    if (← atAny ["get", "set"]) && beginsName next then
      let getter ← at? "get"
      advance
      let name ← memberKey g m
      require !(!isStatic && name == some "constructor")
      require !(isStatic && name == some "prototype")
      let found ← declaredRest g (.function false false)
      require (if getter then isGetter found else isSetter found)
    else if ← atIndexSignature then
      indexSignature g m
      semicolon
    else
      let isAsync := (← at? "async") && (beginsName next || isSymbol "*" next) && !ended
      if isAsync then advance
      let isGenerator ← eat "*"
      let name ← memberKey g m
      if !(← eat "?") then
        let _ ← eat "!"
      if ← atAny ["(", "<"] then classMethod g isStatic isAsync isGenerator name
      else
        require !(isAsync || isGenerator)
        classField g m isStatic name

/-- The members of a class, in braces. -/
def classBody (g : Rules) (m : Mode) : Parser Unit :=
  enclosed braceOpen braceClose do
    let step (_ : Unit) : Parser (Unit ⊕ Unit) := do
      if ← at? braceClose then return .inr ()
      classMember g m
      return .inl ()
    iterate step ()

/-- A class from the word `class` on. -/
def classRest (g : Rules) (m : Mode) : Parser Unit := do
  expect "class"
  let (next, _) ← following
  match ← peek with
  | .word w _ =>
    let isClause := w == "implements" && beginsName next
    if !reservedWords.contains w && !isClause then
      let _ ← identifier m
  | _ => pure ()
  typeParameters g m
  if ← eat "extends" then
    let _ ← g.operand m
    if ← at? "<" then typeArguments g m
  if ← eat "implements" then
    let step (_ : Unit) : Parser (Unit ⊕ Unit) := do
      typeName g m
      if ← eat "," then return .inl () else return .inr ()
    iterate step ()
  classBody g m

end ViewLint.Script
