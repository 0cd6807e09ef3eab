import ViewLint.Text.Hex

/-!
# JSON texts

A reader of strict JSON.  Strings are kept as they are written and are decoded only where
their value matters; a string whose escapes denote no text is harmless elsewhere.

## Main definitions

* `Json` — the values.
* `Json.parse?` — the value of a text.
* `Json.decode?` — the text that the inside of a string literal denotes.
* `Json.text?`, `Json.texts?`, `Json.field?` — parts of values.
-/

namespace ViewLint

open Text

/-- A value of JSON.  Strings and names are written texts; of a number only its presence
counts. -/
inductive Json where
  | null
  | bool (value : Bool)
  | number
  | string (written : List Char)
  | array (items : List Json)
  | object (fields : List (List Char × Json))
  deriving Inhabited

namespace Json

/-- White space between the tokens. -/
def isSpace (c : Char) : Bool := c == ' ' || c == '\n' || c == '\t' || c == '\r'

/-- The text from the next token on. -/
def skip (t : List Char) : List Char := t.dropWhile isSpace

/-! ### Strings -/

/-- The inside of a string literal whose opening quote has been read, and the text behind
it. -/
def written : List Char → Option (List Char × List Char)
  | [] => none
  | '\x22' :: t => some ([], t)
  | '\\' :: 'u' :: a :: b :: c :: d :: t => do
    let _ ← hex4 [a, b, c, d]
    let (inside, rest) ← written t
    some ('\\' :: 'u' :: a :: b :: c :: d :: inside, rest)
  | '\\' :: c :: t => do
    guard ("\x22\\/bfnrt".toList.contains c)
    let (inside, rest) ← written t
    some ('\\' :: c :: inside, rest)
  | c :: t => do
    guard (c != '\\' && 0x20 ≤ c.toNat)
    let (inside, rest) ← written t
    some (c :: inside, rest)

/-- The code points and code units that a written text denotes. -/
def units : List Char → List Nat
  | [] => []
  | '\\' :: 'u' :: a :: b :: c :: d :: t =>
    ((hex4 [a, b, c, d]).map (·.1)).toList ++ units t
  | '\\' :: c :: t =>
    (match c with
      | 'b' => '\x08'
      | 'f' => '\x0c'
      | 'n' => '\n'
      | 'r' => '\r'
      | 't' => '\t'
      | c => c).toNat :: units t
  | c :: t => c.toNat :: units t

/-- The text of code points and units.  Two halves of a surrogate pair make one character; a
half that stands alone makes no text. -/
def joinUnits : List Nat → Option (List Char)
  | [] => some []
  | high :: low :: ns =>
    if isHighSurrogate high then
      if isLowSurrogate low then (joinUnits ns).map (pairChar high low :: ·) else none
    else if isLowSurrogate high then none
    else (joinUnits (low :: ns)).map (.ofNat high :: ·)
  | [n] => if isHighSurrogate n || isLowSurrogate n then none else some [.ofNat n]

/-- The text that the inside of a string literal denotes. -/
def decode? (written : List Char) : Option String :=
  (joinUnits (units written)).map .ofList

/-! ### Numbers -/

/-- The text behind at least one digit. -/
def digits : List Char → Option (List Char)
  | c :: t => if c.isDigit then some (t.dropWhile Char.isDigit) else none
  | [] => none

/-- The text behind the exponent that may end a number. -/
def exponent : List Char → Option (List Char)
  | c :: t =>
    if c == 'e' || c == 'E' then
      match t with
      | '+' :: t => digits t
      | '-' :: t => digits t
      | t => digits t
    else some (c :: t)
  | [] => some []

/-- The text behind the fraction and the exponent that may end a number. -/
def fraction : List Char → Option (List Char)
  | '.' :: t => (digits t).bind exponent
  | t => exponent t

/-- The text behind an unsigned number.  It begins with one zero or with another digit. -/
def unsigned : List Char → Option (List Char)
  | '0' :: t => fraction t
  | t => (digits t).bind fraction

/-- The text behind a number. -/
def numberEnd : List Char → Option (List Char)
  | '-' :: t => unsigned t
  | t => unsigned t

/-! ### Values -/

/-- Reads what stands between an opening bracket and `close`: nothing, or items with commas
between them. -/
def sequence {α : Type} (item : List Char → Option (α × List Char)) (close : Char)
    (t : List Char) : Option (List α × List Char) :=
  match skip t with
  | [] => none
  | c :: t' => if c = close then some ([], t') else items t.length (c :: t')
where
  /-- At most `fuel` items; each of them takes a character. -/
  items : Nat → List Char → Option (List α × List Char)
    | 0, _ => none
    | fuel + 1, t => do
      let (a, t) ← item t
      match skip t with
      | ',' :: t =>
        let (as, t) ← items fuel t
        some (a :: as, t)
      | c :: t => if c = close then some ([a], t) else none
      | [] => none

/-- A name and its value, read with a given reader of values. -/
def member (value : List Char → Option (Json × List Char)) (t : List Char) :
    Option ((List Char × Json) × List Char) :=
  match skip t with
  | '\x22' :: t => do
    let (name, t) ← written t
    match skip t with
    | ':' :: t =>
      let (v, t) ← value t
      some ((name, v), t)
    | _ => none
  | _ => none

/-- A value and the text behind it, nested at most `fuel` levels deep. -/
def value : Nat → List Char → Option (Json × List Char)
  | 0, _ => none
  | fuel + 1, t =>
    match skip t with
    | 'n' :: 'u' :: 'l' :: 'l' :: t => some (.null, t)
    | 't' :: 'r' :: 'u' :: 'e' :: t => some (.bool true, t)
    | 'f' :: 'a' :: 'l' :: 's' :: 'e' :: t => some (.bool false, t)
    | '\x22' :: t => (written t).map fun (s, t) => (.string s, t)
    | '[' :: t => (sequence (value fuel) ']' t).map fun (vs, t) => (.array vs, t)
    | '\x7b' :: t => (sequence (member (value fuel)) '\x7d' t).map fun (fs, t) => (.object fs, t)
    | t => (numberEnd t).map (.number, ·)

/-- The value of a text.  Each level of nesting takes a character. -/
def parse? (text : String) : Option Json := do
  let t := text.toList
  let (v, rest) ← value (t.length + 1) t
  guard (skip rest).isEmpty
  return v

/-! ### Parts of values -/

/-- The text of a string. -/
def text? : Json → Option String
  | .string written => decode? written
  | _ => none

/-- The texts of an array of strings. -/
def texts? : Json → Option (List String)
  | .array items => items.mapM text?
  | _ => none

/-- The value of a name in an object. -/
def field? (name : String) : Json → Option Json
  | .object fields => (fields.find? fun f => decode? f.1 == some name).map (·.2)
  | _ => none

end Json

end ViewLint
