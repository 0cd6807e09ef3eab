import ViewLint.Markup.Fault

/-!
# Directives

The grammar of the comments that speak to the linter.  A directive is read from the body of
its comment, without the blanks around it; blanks may stand between its parts.

## Main definitions

* `identifier`, `quotedString` — names and module paths.
* `importClause` — what a view takes from a module: `* as x`, `{ a, b as c }`, `x`, or
  `x, { a }`.
* `typeReference` — `typeof a.b` or `A.B<C>`.
* `comment` — the token that the body of a comment makes, if any.
-/

namespace ViewLint.Markup

open Text

/-- Stops at the cursor of a directive. -/
def stopDirective {α : Type} (expected : Expected) : Reading α := do
  stopAt (← get) expected .endOfDirective .directive

/-- Skips the blanks ahead. -/
def skipBlanks : Reading Unit := modify (·.skipWhile isBlank)

/-- Reads a mark of punctuation if it is ahead. -/
def eat (mark : Char) : Reading Bool := do
  skipBlanks
  let c ← get
  if c.rest.head? = some mark then
    set (c.drop 1)
    return true
  else return false

/-- Reads a mark of punctuation, which must be ahead. -/
def expect (mark : Char) : Reading Unit := do
  if !(← eat mark) then stopDirective (.literal (.ofList [mark]))

/-- The longest name that a text begins with. -/
def leadingName : List Char → List Char
  | [] => []
  | c :: t => if isNameStart c then c :: t.takeWhile isNamePart else []

/-- Reads a word if it is ahead, as a whole name. -/
def eatWord (word : String) : Reading Bool := do
  skipBlanks
  let c ← get
  if leadingName c.rest = word.toList then
    set (c.drop word.length)
    return true
  else return false

/-- Reads a word, which must be ahead. -/
def expectWord (word : String) : Reading Unit := do
  if !(← eatWord word) then stopDirective (.literal word)

/-- Reads a name. -/
def identifier (s : Source) : Reading Ident := do
  skipBlanks
  let c ← get
  match leadingName c.rest with
  | [] => stopDirective .identifier
  | name =>
    set (c.drop name.length)
    return s.ident c.pos (c.pos + name.length)

/-- Reads a text in quotes; its place is that of the text between them. -/
def quotedString (s : Source) : Reading Ident := do
  skipBlanks
  let c ← get
  match c.rest with
  | [] => stopDirective .string
  | quote :: t =>
    if quote = '\x22' ∨ quote = '\x27' then
      match indexOf? [quote] t with
      | some n =>
        set (c.drop (n + 2))
        return s.ident (c.pos + 1) (c.pos + 1 + n)
      | none =>
        set c.toEnd
        stopDirective (.closingQuote quote)
    else stopDirective .string

/-- The end of the directive must be ahead. -/
def finished : Reading Unit := do
  skipBlanks
  if !(← get).atEnd then stopDirective .endOfDirective

/-! ### Imports -/

/-- One symbol of a list, with the name it is given if there is one. -/
def importSymbol (s : Source) : Reading ImportSymbol := do
  let name ← identifier s
  if ← eatWord "as" then
    let given ← identifier s
    return ⟨name, given⟩
  else return ⟨name, name⟩

/-- The symbols of a list from behind its opening brace on, at most `fuel` of them. -/
def importSymbols (s : Source) : Nat → Reading (List ImportSymbol)
  | 0 => return []
  | fuel + 1 => do
    if ← eat '\x7d' then return []
    let symbol ← importSymbol s
    if ← eat ',' then return symbol :: (← importSymbols s fuel)
    expect '\x7d'
    return [symbol]

/-- A list of symbols in braces.  Every symbol takes a character, so the text ahead bounds
their number. -/
def importList (s : Source) : Reading (List ImportSymbol) := do
  expect '\x7b'
  importSymbols s ((← get).rest.length + 1)

/-- What a view takes from a module. -/
def importClause (s : Source) : Reading (List ImportSymbol) := do
  skipBlanks
  let c ← get
  match c.rest.head? with
  | some '*' =>
    set (c.drop 1)
    expectWord "as"
    let given ← identifier s
    return [⟨s.ident c.pos (c.pos + 1), given⟩]
  | some '\x7b' => importList s
  | _ =>
    let given ← identifier s
    let symbol : ImportSymbol := ⟨⟨"default", given.location⟩, given⟩
    if ← eat ',' then return symbol :: (← importList s) else return [symbol]

/-- An import from behind its first word on. -/
def importDirective (s : Source) (location : Location) : Reading Directive := do
  let symbols ← importClause s
  expectWord "from"
  let path ← quotedString s
  finished
  return .imports ⟨location, symbols, path⟩

/-! ### Types -/

/-- The further names of a path, at most `fuel` of them. -/
def pathRest (s : Source) : Nat → Reading Unit
  | 0 => return ()
  | fuel + 1 => do
    let c ← get
    if c.rest.head? = some '.' then
      set (c.drop 1)
      let _ ← identifier s
      pathRest s fuel

/-- The number of characters up to and with the bracket that closes the last open one, when
`depth` brackets are open. -/
def closeAngle? : Nat → List Char → Option Nat
  | _, [] => none
  | depth, c :: t =>
    if c = '<' then (closeAngle? (depth + 1) t).map (· + 1)
    else if c = '>' then
      if depth ≤ 1 then some 1 else (closeAngle? (depth - 1) t).map (· + 1)
    else (closeAngle? depth t).map (· + 1)

/-- The arguments of a type in angle brackets, if there are any. -/
def typeArguments : Reading Unit := do
  let c ← get
  if c.rest.head? = some '<' then
    match closeAngle? 0 c.rest with
    | some n => set (c.drop n)
    | none =>
      set c.toEnd
      stopDirective (.literal ">")

/-- A type, or the type of a value. -/
def typeReference (s : Source) : Reading TypeReference := do
  let isType := !(← eatWord "typeof")
  skipBlanks
  let start := (← get).pos
  let _ ← identifier s
  pathRest s ((← get).rest.length + 1)
  if isType then typeArguments
  let stop := (← get).pos
  finished
  return ⟨s.ident start stop, isType⟩

/-! ### Comments -/

/-- The keys that a lint directive lists. -/
def lintKeys (t : List Char) : List String :=
  ((pieces (fun c => isBlank c || c == ',') t).filter (!·.isEmpty)).map .ofList

/-- The tag of a virtual element. -/
def virtualTag : String := "ko"

/-- The opening of a virtual element, whose comment covers the given place. -/
def virtualElement (s : Source) (whole : Location) : Reading Token := do
  skipBlanks
  let c ← get
  if c.atEnd then stopDirective .binding
  return .element
    { tag := virtualTag, type := .start, location := whole,
      bindings := [⟨s.location c.pos c.stop, .ofList c.rest⟩], isVirtual := true }

/-- Whether the body of a comment begins with the closing of a virtual element. -/
def closesVirtual (body : List Char) : Bool :=
  "/ko".toList.isPrefixOf body && (body[3]?).all isBlank

/-- The token that a comment makes, if any.  `whole` is the place of the comment, and the
cursor stands at its body, without the blanks around it. -/
def comment (s : Source) (whole : Location) (body : Cursor) : Except Fault (Option Token) := do
  if closesVirtual body.rest then
    if (body.rest.drop 3).all isBlank then
      return some (.element
        { tag := virtualTag, type := .stop, location := whole, bindings := [], isVirtual := true })
    else return none
  let word := body.rest.takeWhile (!isBlank ·)
  let rest := body.drop word.length
  let location := s.location body.pos body.stop
  match String.ofList word with
  | "ko" => return some (← (virtualElement s whole).run' rest)
  | "ko-import" => return some (.directive (← (importDirective s location).run' rest))
  | "ko-viewmodel" =>
    return some (.directive (.viewmodel location (← (typeReference s).run' rest)))
  | "ko-context" =>
    return some (.directive (.context location (← (typeReference s).run' rest)))
  | "ko-lint-disable" => return some (.directive (.lint location (lintKeys rest.rest) false))
  | "ko-lint-enable" => return some (.directive (.lint location (lintKeys rest.rest) true))
  | _ => return none

end ViewLint.Markup
