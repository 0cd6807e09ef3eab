import ViewLint.Script.Identifier
import ViewLint.Text.Hex

/-!
# Literals and words of the script language

Scanners for the parts of a script whose extent does not depend on the grammar around
them.  Each takes the text at hand and returns what is left of it, or nothing when the
text is malformed.

## Main definitions

* `number` — numeric literals with separators, radixes, exponents and big integers.
* `quoted`, `templatePiece` — the body of a string, and of one stretch of a template.
* `decode` — the characters that a body denotes once its escapes are resolved.
* `word` — identifiers and reserved words, escapes included.
* `regex` — a regular expression with its flags.
-/

namespace ViewLint.Script

open Text

/-- A character that ends a line of a script. -/
def isLineEnd (c : Char) : Bool :=
  c == '\n' || c == '\r' || c.toNat == 0x2028 || c.toNat == 0x2029

/-- White space of a script that does not end a line. -/
def isSpace (c : Char) : Bool :=
  let n := c.toNat
  n == 0x09 || n == 0x0B || n == 0x0C || n == 0x20 || n == 0x85 || n == 0xA0 ||
    n == 0x1680 || (0x2000 ≤ n && n ≤ 0x200B) || n == 0x202F || n == 0x205F ||
    n == 0x3000 || n == 0xFEFF

/-! ### Numbers -/

/-- A digit of the given radix. -/
def isDigitOf (radix : Nat) (c : Char) : Bool :=
  match hexValue? c with
  | some v => v < radix
  | none => false

/-- The rest of a run of digits whose first digit has been read.  A single separator may
stand between two digits. -/
def digits (radix : Nat) : List Char → Option (List Char)
  | '_' :: c :: t => if isDigitOf radix c then digits radix t else none
  | ['_'] => none
  | c :: t => if isDigitOf radix c then digits radix t else some (c :: t)
  | [] => some []

/-- A run of at least one digit. -/
def digits1 (radix : Nat) : List Char → Option (List Char)
  | c :: t => if isDigitOf radix c then digits radix t else none
  | [] => none

/-- A number must not run into a digit or the start of an identifier. -/
def numberEnd : List Char → Option (List Char)
  | [] => some []
  | c :: t => if c.isDigit || isIdentifierStart c then none else some (c :: t)

/-- An exponent, if there is one, and the end of the number. -/
def exponent : List Char → Option (List Char)
  | c :: t =>
    if c == 'e' || c == 'E' then
      match t with
      | '+' :: t => digits1 10 t >>= numberEnd
      | '-' :: t => digits1 10 t >>= numberEnd
      | t => digits1 10 t >>= numberEnd
    else numberEnd (c :: t)
  | [] => some []

/-- What follows a decimal point: digits, if there are any, and an exponent. -/
def fraction : List Char → Option (List Char)
  | c :: t => if c.isDigit then digits 10 t >>= exponent else exponent (c :: t)
  | [] => some []

/-- What follows the integer part of a decimal number.  The answer tells a big integer
from a number. -/
def afterInteger : List Char → Option (Bool × List Char)
  | '.' :: t => (fraction t).map (false, ·)
  | 'n' :: t => (numberEnd t).map (true, ·)
  | t => (exponent t).map (false, ·)

/-- What follows the radix mark of a number. -/
def afterRadix (radix : Nat) (t : List Char) : Option (Bool × List Char) := do
  match ← digits1 radix t with
  | 'n' :: t => (numberEnd t).map (true, ·)
  | t => (numberEnd t).map (false, ·)

/-- What follows a zero that leads further digits.  The number is decimal, and may have a
fraction, only if it has a digit that octal lacks. -/
def afterLeadingZero (t : List Char) : Option (Bool × List Char) :=
  let run := t.takeWhile Char.isDigit
  let rest := t.dropWhile Char.isDigit
  if run.any (fun c => c == '8' || c == '9') then
    match rest with
    | '.' :: t => (fraction t).map (false, ·)
    | t => (exponent t).map (false, ·)
  else (numberEnd rest).map (false, ·)

/-- A numeric literal.  The answer tells a big integer from a number. -/
def number : List Char → Option (Bool × List Char)
  | '0' :: c :: t =>
    if c == 'b' || c == 'B' then afterRadix 2 t
    else if c == 'o' || c == 'O' then afterRadix 8 t
    else if c == 'x' || c == 'X' then afterRadix 16 t
    else if c.isDigit then afterLeadingZero (c :: t)
    else if c == '_' then none
    else afterInteger (c :: t)
  | '.' :: t => (digits1 10 t >>= exponent).map (false, ·)
  | t => digits1 10 t >>= afterInteger

/-! ### Strings and templates -/

/-- The body of a string up to its closing quote, and the text behind it.  A line may end
inside the body only behind a backslash. -/
def quoted (quote : Char) : List Char → Option (List Char × List Char)
  | '\\' :: '\r' :: '\n' :: t =>
    (quoted quote t).map fun (b, r) => ('\\' :: '\r' :: '\n' :: b, r)
  | '\\' :: c :: t => (quoted quote t).map fun (b, r) => ('\\' :: c :: b, r)
  | c :: t =>
    if c == quote then some ([], t)
    else if c == '\n' || c == '\r' then none
    else (quoted quote t).map fun (b, r) => (c :: b, r)
  | [] => none

/-- One stretch of a template: its body, whether a substitution follows, and the text
behind it. -/
def templatePiece : List Char → Option (List Char × Bool × List Char)
  | '\\' :: c :: t => (templatePiece t).map fun (b, more, r) => ('\\' :: c :: b, more, r)
  | '\x60' :: t => some ([], false, t)
  | '$' :: '\x7b' :: t => some ([], true, t)
  | c :: t => (templatePiece t).map fun (b, more, r) => (c :: b, more, r)
  | [] => none

/-- What an escape can denote: a character, or half of a surrogate pair. -/
inductive Piece where
  | scalar (c : Char)
  | lone (unit : Nat)
  deriving DecidableEq, Repr

/-- The piece with a given code point. -/
def Piece.ofCode (n : Nat) : Piece :=
  if 0xD800 ≤ n ∧ n < 0xE000 then .lone n else .scalar (Char.ofNat n)

/-- A code point in braces, whose opening brace has been read. -/
def bracedCode (t : List Char) : Option (Nat × List Char) :=
  let run := t.takeWhile (fun c => (hexValue? c).isSome)
  let n := run.foldl (fun n c => n * 16 + (hexValue? c).getD 0) 0
  match t.dropWhile (fun c => (hexValue? c).isSome) with
  | '\x7d' :: rest => if run.isEmpty || 0x10FFFF < n then none else some (n, rest)
  | _ => none

/-- A Unicode escape, whose backslash and letter have been read.  Two escapes of four
digits that form a surrogate pair denote one character. -/
def unicodeEscape : List Char → Option (Piece × List Char)
  | '\x7b' :: t => (bracedCode t).map fun (n, r) => (.ofCode n, r)
  | t => do
    let (high, r) ← hex4 t
    let single := (Piece.ofCode high, r)
    if isHighSurrogate high then
      match r with
      | '\\' :: 'u' :: r' =>
        match hex4 r' with
        | some (low, r'') =>
          if isLowSurrogate low then some (.scalar (pairChar high low), r'')
          else some single
        | none => some single
      | _ => some single
    else some single

/-- An octal escape of a string: at most three digits, and a value below 256. -/
def octalEscape (first : Char) (t : List Char) : Piece × List Char :=
  let more := if first ≤ '3' then 2 else 1
  let run := (t.take more).takeWhile (isDigitOf 8)
  let n := (first :: run).foldl (fun n c => n * 8 + (hexValue? c).getD 0) 0
  (.ofCode n, t.drop run.length)

/-- The character that a backslash and a letter denote. -/
def letterEscape (c : Char) : Char :=
  match c with
  | 'b' => '\x08'
  | 'f' => '\x0c'
  | 'n' => '\n'
  | 'r' => '\r'
  | 't' => '\t'
  | 'v' => '\x0b'
  | c => c

/-- One escape, whose backslash has been read: what it denotes, nothing when it continues a
line, and the text behind it.  A template has no octal escapes. -/
def escape (inTemplate : Bool) : List Char → Option (Option Piece × List Char)
  | '\r' :: '\n' :: t => some (none, t)
  | 'x' :: a :: b :: t => do
    let a ← hexValue? a
    let b ← hexValue? b
    some (some (.ofCode (a * 16 + b)), t)
  | c :: t =>
    if isLineEnd c then some (none, t)
    else if c == 'x' then none
    else if c == 'u' then (unicodeEscape t).map fun (p, r) => (some p, r)
    else if c == '0' && !(t.head?.any Char.isDigit) then some (some (.ofCode 0), t)
    else if c.isDigit && inTemplate then none
    else if isDigitOf 8 c then
      let (p, r) := octalEscape c t
      some (some p, r)
    else some (some (.scalar (letterEscape c)), t)
  | [] => none

/-- The pieces of a body, read with at most `fuel` steps. -/
def decodeSteps (inTemplate : Bool) : Nat → List Char → Option (List Piece)
  | _, [] => some []
  | 0, _ => some []
  | fuel + 1, '\\' :: t => do
    let (p, r) ← escape inTemplate t
    let ps ← decodeSteps inTemplate fuel r
    some (p.toList ++ ps)
  | fuel + 1, c :: t => (decodeSteps inTemplate fuel t).map (.scalar c :: ·)

/-- What a body denotes, or nothing when one of its escapes is malformed.  Every step reads
at least one character, so the length of the body bounds the number of steps. -/
def decode (inTemplate : Bool) (body : List Char) : Option (List Piece) :=
  decodeSteps inTemplate body.length body

/-- The text of a decoded body.  If half a surrogate pair stands alone in it, that half is
written as the replacement character and its four hexadecimal digits, and so is the
replacement character itself. -/
def pieceText (ps : List Piece) : String :=
  let mark := Char.ofNat 0xFFFD
  let hasLone := ps.any fun
    | .lone _ => true
    | .scalar _ => false
  .ofList <| ps.flatMap fun
    | .lone n => mark :: hexDigits4 n
    | .scalar c => if hasLone && c == mark then mark :: hexDigits4 0xFFFD else [c]

/-! ### Words -/

/-- One character of a word that is written as an escape. -/
def wordEscape : List Char → Option (Char × List Char)
  | 'u' :: '\x7b' :: t => do
    let (n, r) ← bracedCode t
    some (Char.ofNat n, r)
  | 'u' :: t => do
    let (n, r) ← hex4 t
    some (Char.ofNat n, r)
  | _ => none

/-- The further characters of a word, whether one was escaped, and the text behind it. -/
def wordRest : Nat → List Char → Option (List Char × Bool × List Char)
  | 0, t => some ([], false, t)
  | _, [] => some ([], false, [])
  | fuel + 1, '\\' :: t => do
    let (c, r) ← wordEscape t
    if isIdentifierPart c then
      let (cs, _, r) ← wordRest fuel r
      some (c :: cs, true, r)
    else none
  | fuel + 1, c :: t =>
    if isIdentifierPart c then
      (wordRest fuel t).map fun (cs, escaped, r) => (c :: cs, escaped, r)
    else some ([], false, c :: t)

/-- A word: its characters, whether one of them was escaped, and the text behind it. -/
def word : List Char → Option (String × Bool × List Char)
  | '\\' :: t => do
    let (c, r) ← wordEscape t
    if isIdentifierStart c then
      let (cs, _, r) ← wordRest r.length r
      some (.ofList (c :: cs), true, r)
    else none
  | c :: t =>
    if isIdentifierStart c then
      (wordRest t.length t).map fun (cs, escaped, r) => (.ofList (c :: cs), escaped, r)
    else none
  | [] => none

/-! ### Regular expressions -/

/-- The text behind the closing slash of a regular expression, whose opening slash has been
read.  A slash inside a class or behind a backslash does not close it. -/
def regexBody (inClass : Bool) : List Char → Option (List Char)
  | '\\' :: c :: t => if isLineEnd c then none else regexBody inClass t
  | c :: t =>
    if isLineEnd c then none
    else if c == '/' && !inClass then some t
    else regexBody (if c == '[' then true else if c == ']' then false else inClass) t
  | [] => none

/-- The flags of a regular expression: known letters, none of them twice. -/
def areFlags (flags : List Char) : Bool :=
  flags.all "dgimsuvy".toList.contains && flags.eraseDups.length == flags.length

/-- A regular expression with its flags, whose opening slash has been read. -/
def regex (t : List Char) : Option (List Char) := do
  let t ← regexBody false t
  let isFlag := fun (c : Char) => c.isAlphanum || c == '$' || c == '_'
  if areFlags (t.takeWhile isFlag) then some (t.dropWhile isFlag) else none

end ViewLint.Script
