import ViewLint.Script.Rules

/-!
# Types

Types occur in scripts behind colons, behind the words `as` and `satisfies`, and in angle
brackets.  Nothing is recorded of them; the rules only find where they end.

## Main definitions

* `type`, `typeOperand` — types, and types that bind tighter than unions.
* `typeParameters`, `typeArguments` — lists in angle brackets.
* `annotation`, `returnType` — types behind a colon.
* `parameters` — the parameters of a function, which carry types and patterns.
* `typeMembers` — the body of an interface.
-/

namespace ViewLint.Script

open ViewLint.Script.Parser

/-! ### Lists in angle brackets -/

/-- The arguments of a generic type. -/
def typeArguments (g : Rules) (m : Mode) : Parser Unit :=
  enclosed "<" ">" do
    let (found, _) ← separated ">" (g.type m)
    require !found.isEmpty

/-- The parameters of a generic function or type, if there are any. -/
def typeParameters (g : Rules) (m : Mode) : Parser Unit := do
  if ← at? "<" then
    enclosed "<" ">" do
      let one : Parser Unit := do
        let modifier : Parser (Unit ⊕ Unit) := do
          if ← atAny ["const", "in", "out"] then
            match ← following with
            | (.word w _, _) =>
              if w == "extends" then return .inr ()
              advance
              return .inl ()
            | _ => return .inr ()
          else return .inr ()
        iterate (fun _ => modifier) ()
        let _ ← identifier m
        if ← eat "extends" then g.type m
        if ← eat "=" then g.type m
      let (found, _) ← separated ">" one
      require !found.isEmpty

/-- A type behind a colon, if there is one. -/
def annotation (g : Rules) (m : Mode) : Parser Bool := do
  if ← eat ":" then
    g.type m
    return true
  else return false

/-- The type of a result: a type, or what the result says of a parameter. -/
def resultType (g : Rules) (m : Mode) : Parser Unit := do
  let subject (l : Lexeme) : Bool := match l with
    | .word w _ => w == "this" || !reservedWords.contains w
    | _ => false
  let (next, ended) ← following
  if (← at? "asserts") && subject next && !ended then
    advance
    advance
    if ← eat "is" then g.type m
  else if subject (← peek) && isSymbol "is" next && !ended then
    advance
    advance
    g.type m
  else g.type m

/-- The type of a result behind a colon, if there is one. -/
def returnType (g : Rules) (m : Mode) : Parser Bool := do
  if ← eat ":" then
    resultType g m
    return true
  else return false

/-! ### Parameters -/

/-- What the rules for functions ask of a parameter. -/
structure Parameter where
  /-- Whether it takes the rest of the arguments. -/
  rest : Bool
  initialised : Bool
  /-- Whether it states the type of the receiver, and so is no argument. -/
  receiver : Bool

/-- What the rules for functions ask of a list of parameters. -/
structure Parameters where
  /-- The number of arguments. -/
  count : Nat
  rest : Bool
  initialised : Bool
  receiver : Bool

/-- The words that may precede a parameter of a constructor. -/
def parameterModifiers : List String :=
  ["public", "private", "protected", "readonly", "override"]

/-- One parameter. -/
def parameter (g : Rules) (m : Mode) : Parser Parameter := do
  let modifier : Parser (Unit ⊕ Unit) := do
    if ← atAny parameterModifiers then
      match ← following with
      | (.word _ _, false) =>
        advance
        return .inl ()
      | (.symbol s, false) =>
        if s == "[" || s == braceOpen then
          advance
          return .inl ()
        else return .inr ()
      | _ => return .inr ()
    else return .inr ()
  iterate (fun _ => modifier) ()
  if ← eat "..." then
    g.pattern m
    let _ ← annotation g m
    require (← at? ")")
    return ⟨true, false, false⟩
  if ← eat "this" then
    let _ ← annotation g m
    return ⟨false, false, true⟩
  g.pattern m
  let optional ← eat "?"
  let _ ← annotation g m
  let initialised ← initialiser g m.inside
  require !(optional && initialised)
  return ⟨false, initialised, false⟩

/-- The parameters of a function, in parentheses.  A comma may not follow the parameter that
takes the rest of the arguments. -/
def parameters (g : Rules) (m : Mode) : Parser Parameters :=
  enclosed "(" ")" do
    let (found, trailing) ← separated ")" (parameter g m)
    let rest := found.any (·.rest)
    require !(rest && trailing)
    return ⟨found.countP (!·.receiver), rest, found.any (·.initialised), found.any (·.receiver)⟩

/-! ### Object types -/

/-- The parameters and the result of a call, as a member of an object type. -/
def signature (g : Rules) (m : Mode) : Parser Unit := do
  typeParameters g m
  let _ ← parameters g m
  let _ ← returnType g m

/-- Whether an index signature is at hand. -/
def atIndexSignature : Parser Bool := do
  let found ← lookahead do
    expect "["
    let _ ← anyWord
    expect ":"
  return found.isSome

/-- An index signature. -/
def indexSignature (g : Rules) (m : Mode) : Parser Unit := do
  enclosed "[" "]" do
    let _ ← anyWord
    let _ ← annotation g m
  let _ ← annotation g m

/-- One member of an object type. -/
def typeMember (g : Rules) (m : Mode) : Parser Unit := do
  let (next, _) ← following
  if ← atAny ["(", "<"] then signature g m
  else if (← at? "new") && (isSymbol "(" next || isSymbol "<" next) then
    advance
    signature g m
  else
    if (← atAny ["readonly", "get", "set"]) && beginsName next then advance
    if ← atIndexSignature then indexSignature g m
    else
      let _ ← propertyKey g m
      let _ ← eat "?"
      if ← atAny ["(", "<"] then signature g m
      else
        let _ ← annotation g m

/-- The members of an object type, in braces. -/
def typeMembers (g : Rules) (m : Mode) : Parser Unit :=
  enclosed braceOpen braceClose do
    let step (_ : Unit) : Parser (Unit ⊕ Unit) := do
      if ← at? braceClose then return .inr ()
      typeMember g m
      if !(← eat ",") then semicolon
      return .inl ()
    iterate step ()

/-- A type that maps every name of a type to a type, in braces. -/
def mappedType (g : Rules) (m : Mode) : Parser Unit :=
  enclosed braceOpen braceClose do
    if (← eat "+") || (← eat "-") then expect "readonly"
    else
      let _ ← eat "readonly"
    enclosed "[" "]" do
      let _ ← anyWord
      expect "in"
      g.type m
      if ← eat "as" then g.type m
    if (← eat "+") || (← eat "-") then expect "?"
    else
      let _ ← eat "?"
    let _ ← annotation g m
    let _ ← eat ";"
    let _ ← eat ","

/-- Whether a mapped type is at hand. -/
def atMappedType : Parser Bool := do
  let found ← lookahead do
    expect braceOpen
    if (← eat "+") || (← eat "-") then expect "readonly"
    else
      let _ ← eat "readonly"
    expect "["
    let _ ← anyWord
    expect "in"
  return found.isSome

/-! ### Operands -/

/-- An element of a tuple type. -/
def tupleElement (g : Rules) (m : Mode) : Parser Unit := do
  let _ ← eat "..."
  let label : Parser Unit := do
    let _ ← anyWord
    let _ ← eat "?"
    expect ":"
  let _ ← attempt label
  g.type m
  let _ ← eat "?"

/-- A name with members: the names that dots join, and their arguments. -/
def typeName (g : Rules) (m : Mode) : Parser Unit := do
  let _ ← anyWord
  let step (_ : Unit) : Parser (Unit ⊕ Unit) := do
    if ← eat "." then
      let _ ← anyWord
      return .inl ()
    else return .inr ()
  iterate step ()
  if (← at? "<") && !(← lineEnded) then typeArguments g m

/-- The type of a module, whose path is a string. -/
def moduleType (g : Rules) (m : Mode) : Parser Unit := do
  expect "import"
  enclosed "(" ")" do
    match ← peek with
    | .quote _ => advance
    | _ => reject
    if ← eat "," then
      let _ ← separated ")" (g.type m)
  if ← eat "." then typeName g m
  else if (← at? "<") && !(← lineEnded) then typeArguments g m

/-- A template of types. -/
def templateType (g : Rules) (m : Mode) : Parser Unit := do
  let step (_ : Unit) : Parser (Unit ⊕ Unit) := do
    match ← peek with
    | .template more _ =>
      advance
      if more then
        g.type m
        require (← at? braceClose)
        rescan fun t => lexTemplate (t.drop 1)
        return .inl ()
      else return .inr ()
    | _ => reject
  iterate step ()

/-- A type without operators. -/
def plainType (g : Rules) (m : Mode) : Parser Unit := do
  match ← peek with
  | .quote _ => advance
  | .number _ => advance
  | .template _ _ => templateType g m
  | .symbol "-" =>
    advance
    match ← peek with
    | .number _ => advance
    | _ => reject
  | .symbol "(" => enclosed "(" ")" (g.type m)
  | .symbol "[" =>
    enclosed "[" "]" do
      let _ ← separated "]" (tupleElement g m)
  | .symbol "\x7b" => if ← atMappedType then mappedType g m else typeMembers g m
  | .word "typeof" _ =>
    advance
    if ← at? "import" then moduleType g m else typeName g m
  | .word "import" _ => moduleType g m
  | .word w _ =>
    if ["this", "void", "null", "true", "false"].contains w then advance
    else
      require (w == "const" || !reservedWords.contains w)
      typeName g m
  | _ => reject

/-- A type with the brackets behind it. -/
def suffixedType (g : Rules) (m : Mode) : Parser Unit := do
  plainType g m
  let step (_ : Unit) : Parser (Unit ⊕ Unit) := do
    if (← at? "[") && !(← lineEnded) then
      advance
      if ← eat "]" then return .inl ()
      g.type m
      expect "]"
      return .inl ()
    else return .inr ()
  iterate step ()

/-- A type that binds tighter than unions and intersections. -/
def typeOperand (g : Rules) (m : Mode) : Parser Unit := do
  if ← atAny ["keyof", "unique", "readonly"] then
    advance
    g.typeOperand m
  else if ← eat "infer" then
    let _ ← identifier m
    let constraint : Parser Unit := do
      expect "extends"
      g.typeOperand m
      require !(← at? "?")
    let _ ← attempt constraint
  else suffixedType g m

/-- Types joined by an operator, which may also stand in front. -/
def joinedTypes (operator : String) (operand : Parser Unit) : Parser Unit := do
  let _ ← eat operator
  operand
  let step (_ : Unit) : Parser (Unit ⊕ Unit) := do
    if ← eat operator then
      operand
      return .inl ()
    else return .inr ()
  iterate step ()

/-- A union of intersections. -/
def unionType (g : Rules) (m : Mode) : Parser Unit :=
  joinedTypes "|" (joinedTypes "&" (typeOperand g m))

/-! ### Types of functions -/

/-- Whether the parentheses at hand hold the parameters of a function. -/
def atFunctionType (g : Rules) (m : Mode) : Parser Bool := do
  if ← atAny ["<", "new"] then return true
  if (← at? "abstract") && isSymbol "new" (← following).1 then return true
  let found ← lookahead do
    expect "("
    if ← atAny [")", "..."] then return true
    match ← attempt (g.pattern m) with
    | some _ => pure ()
    | none => expect "this"
    if ← atAny [":", ",", "?", "="] then return true
    if ← eat ")" then at? "=>" else return false
  return found.getD false

/-- The type of a function or of a constructor. -/
def functionType (g : Rules) (m : Mode) : Parser Unit := do
  let _ ← eat "abstract"
  let _ ← eat "new"
  typeParameters g m
  let _ ← parameters g m
  expect "=>"
  resultType g m

/-- A type, which may depend on whether one type extends another. -/
def type (g : Rules) (m : Mode) : Parser Unit := do
  if ← atFunctionType g m then functionType g m
  else
    unionType g m
    if (← at? "extends") && !(← lineEnded) then
      advance
      if ← atFunctionType g m then functionType g m else unionType g m
      expect "?"
      g.type m
      expect ":"
      g.type m

end ViewLint.Script
