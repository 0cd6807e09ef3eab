import ViewLint.Script.Literal

/-!
# Lexemes of the script language

The words, literals and symbols that a script is made of.  Whether a slash begins a
regular expression, and whether a closing brace ends a substitution of a template, is
for the grammar to decide; it asks for those readings by `regex` and `templatePiece`.
A closing angle bracket is always read alone, because the grammar of types needs it so;
`angle` joins it with what follows when an operator is meant.

## Main definitions

* `Lexeme` — what can stand between two stretches of white space.
* `skip` — the text behind white space and comments.
* `lex?` — the next lexeme of a text.
-/

namespace ViewLint.Script

/-- A unit of script text. -/
inductive Lexeme where
  /-- An identifier or a reserved word; an escaped one never acts as a reserved word. -/
  | word (text : String) (escaped : Bool)
  /-- The name of a private member. -/
  | privateWord
  /-- A number, or a big integer. -/
  | number (big : Bool)
  /-- A string with the text it denotes. -/
  | quote (value : String)
  /-- A stretch of a template; a substitution may follow, and its escapes may be bad. -/
  | template (more : Bool) (valid : Bool)
  /-- A regular expression. -/
  | regex
  /-- An operator or a mark of punctuation. -/
  | symbol (text : String)
  /-- The end of the text. -/
  | done
  deriving DecidableEq, Repr, Inhabited

/-- The least number of characters of a lexeme; a string has its two quotes. -/
def Lexeme.width : Lexeme → Nat
  | .done => 0
  | .quote _ => 2
  | _ => 1

/-- The opening brace as a symbol. -/
abbrev braceOpen : String := "\x7b"

/-- The closing brace as a symbol. -/
abbrev braceClose : String := "\x7d"

/-! ### White space and comments -/

/-- What kind of text is being skipped. -/
inductive Gap where
  | plain
  | line
  | block
  deriving DecidableEq, Repr

/-- Skips white space and comments, and tells whether a line ended on the way.  A block
comment must be closed. -/
def skip : Gap → Bool → List Char → Option (Bool × List Char)
  | .plain, ended, '/' :: '/' :: t => skip .line ended t
  | .plain, ended, '/' :: '*' :: t => skip .block ended t
  | .plain, ended, c :: t =>
    if isLineEnd c then skip .plain true t
    else if isSpace c then skip .plain ended t
    else some (ended, c :: t)
  | .plain, ended, [] => some (ended, [])
  | .line, ended, c :: t => if isLineEnd c then skip .plain true t else skip .line ended t
  | .line, ended, [] => some (ended, [])
  | .block, ended, '*' :: '/' :: t => skip .plain ended t
  | .block, ended, c :: t => skip .block (ended || isLineEnd c) t
  | .block, _, [] => none

/-! ### Symbols -/

/-- The symbols of more than one character, the longer ones first. -/
def longSymbols : List String :=
  ["...", "===", "!==", "**=", "<<=", "&&=", "||=", "??=", "=>", "==", "!=", "<=", "++", "--",
    "**", "<<", "&&", "||", "??", "?.", "+=", "-=", "*=", "/=", "%=", "&=", "|=", "^="]

/-- The characters that are symbols by themselves. -/
def shortSymbols : List Char := "\x7b\x7d()[];,<>+-*/%&|^!~?:=.@".toList

/-- The operators that begin with a closing angle bracket, the longer ones first. -/
def angleSymbols : List String := [">>>=", ">>>", ">>=", ">>", ">=", ">"]

/-- The first of some symbols that the text begins with. -/
def symbolOf? (symbols : List String) (t : List Char) : Option (String × List Char) :=
  (symbols.find? fun s => s.toList.isPrefixOf t).map fun s => (s, t.drop s.length)

/-- The operator that begins with the closing angle bracket at hand. -/
def angle (t : List Char) : Option (String × List Char) := symbolOf? angleSymbols t

/-- The symbol at hand.  A question mark before a decimal fraction stands alone. -/
def symbol? (t : List Char) : Option (String × List Char) :=
  match t with
  | '?' :: '.' :: c :: r =>
    if c.isDigit then some ("?", '.' :: c :: r) else some ("?.", c :: r)
  | t =>
    match symbolOf? longSymbols t with
    | some found => some found
    | none =>
      match t with
      | c :: r => if shortSymbols.contains c then some (.ofList [c], r) else none
      | [] => none

/-! ### Lexemes -/

/-- A lexeme with the text that begins at it, the text behind it, and whether a line ended
between it and what was read before. -/
structure Lexed where
  lexeme : Lexeme
  ended : Bool
  here : List Char
  rest : List Char

/-- A string literal, whose opening quote has been read. -/
def lexQuoted (quote : Char) (t : List Char) : Option (Lexeme × List Char) := do
  let (body, rest) ← quoted quote t
  let pieces ← decode false body
  some (.quote (pieceText pieces), rest)

/-- A stretch of a template, whose opening mark has been read. -/
def lexTemplate (t : List Char) : Option (Lexeme × List Char) := do
  let (body, more, rest) ← templatePiece t
  some (.template more (decode true body).isSome, rest)

/-- The lexeme that a text begins with. -/
def lexHere (t : List Char) : Option (Lexeme × List Char) :=
  match t with
  | [] => some (.done, [])
  | '\x22' :: r => lexQuoted '\x22' r
  | '\x27' :: r => lexQuoted '\x27' r
  | '\x60' :: r => lexTemplate r
  | '#' :: r => (word r).map fun (_, _, r) => (.privateWord, r)
  | c :: r =>
    if c.isDigit || (c == '.' && r.head?.any Char.isDigit) then
      (number t).map fun (big, r) => (.number big, r)
    else if isIdentifierStart c || c == '\\' then
      (word t).map fun (w, escaped, r) => (.word w escaped, r)
    else (symbol? t).map fun (s, r) => (.symbol s, r)

/-- The next lexeme of a text, behind white space and comments. -/
def lex? (t : List Char) : Option Lexed := do
  let (ended, here) ← skip .plain false t
  let (lexeme, rest) ← lexHere here
  some ⟨lexeme, ended, here, rest⟩

end ViewLint.Script
