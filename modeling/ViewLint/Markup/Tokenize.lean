import ViewLint.Markup.Directive
import ViewLint.Markup.Tag

/-!
# Reading a view

The text of a view becomes a list of tokens.  Everything that is neither a tag nor a comment
is passed over; so are comments that are no directives.

## Main definitions

* `stripMark` — a text without the byte order mark it may begin with.
* `detectDialect` — XML exactly if the text opens with an XML declaration.
* `step` — one construct of the text.
* `normalizeVoid` — elements of HTML that have no content become empty.
* `tokenize` — the tokens of a view.
-/

namespace ViewLint.Markup

open Text

/-- What reading a view depends on besides its text. -/
structure Options where
  /-- The attributes whose values are bindings. -/
  attributes : List String
  forceXml : Bool
  deriving DecidableEq, Repr

/-- The attribute that always holds bindings. -/
def defaultAttribute : String := "data-bind"

/-- A text without the byte order mark it may begin with. -/
def stripMark : List Char → List Char
  | '\ufeff' :: t => t
  | t => t

/-- The dialect of a text: XML if asked for, or if an XML declaration opens it. -/
def detectDialect (t : List Char) (forceXml : Bool) : Dialect :=
  let opens := match trimStart t with
    | '<' :: '?' :: 'x' :: 'm' :: 'l' :: c :: _ => isBlank c || c == '?'
    | _ => false
  if forceXml || opens then .xml else .html

/-! ### Void elements -/

/-- The elements of HTML that have no content. -/
def voidTags : List String :=
  ["area", "base", "br", "col", "embed", "hr", "iframe", "img", "input", "link", "meta", "param",
    "source", "track", "wbr", "command", "keygen", "menuitem"]

/-- A token with void elements made empty: the start tag becomes an empty one and the end tag
goes away. -/
def normalizeToken : Token → Option Token
  | .element e =>
    if e.isVirtual || !voidTags.contains e.tag then some (.element e)
    else
      match e.type with
      | .start => some (.element { e with type := .empty })
      | .stop => none
      | .empty => some (.element e)
  | t => some t

/-- The tokens with void elements made empty. -/
def normalizeVoid (ts : List Token) : List Token := ts.filterMap normalizeToken

/-! ### The text, construct by construct -/

/-- Passes over a construct that `terminator` ends. -/
def skipPast (terminator : String) (construct : Construct) (c : Cursor) :
    Except Fault Cursor :=
  match indexOf? terminator.toList c.rest with
  | some n => .ok (c.drop (n + terminator.length))
  | none => stopAt c.toEnd (.literal terminator) .endOfInput construct

/-- A comment, at its opening: its token, if it makes one, and the cursor behind it. -/
def commentStep (s : Source) (c : Cursor) : Except Fault (Option Token × Cursor) :=
  let content := c.drop 4
  match indexOf? "-->".toList content.rest with
  | none => stopAt c.toEnd (.literal "-->") .endOfInput .comment
  | some n => do
    let after := content.drop (n + 3)
    let inside : Cursor := ⟨content.pos, content.rest.take n⟩
    let lead := inside.skipWhile isBlank
    let body : Cursor := ⟨lead.pos, trimEnd lead.rest⟩
    return (← comment s (s.location c.pos after.pos) body, after)

/-- One construct of the text: the token it makes, if any, and the cursor behind it. -/
def step (s : Source) (c : Cursor) : Except Fault (Option Token × Cursor) :=
  if c.rest.head? ≠ some '<' then .ok (none, c.skipWhile (· != '<'))
  else if c.startsWith "<!--" then commentStep s c
  else if c.startsWith "<![CDATA[" then (skipPast "]]>" .cdata c).map (none, ·)
  else if c.startsWith "<!" then (skipPast ">" .declaration c).map (none, ·)
  else if c.startsWith "<?" then (skipPast "?>" .instruction c).map (none, ·)
  else if c.startsWith "</" then (endTag s c).map fun (t, c) => (some t, c)
  else if (c.rest[1]?).any beginsTag then (startTag s c).map fun (t, c) => (some t, c)
  else .ok (none, c.drop 1)

/-- The tokens ahead of a cursor, of at most `fuel` constructs. -/
def scan (s : Source) : Nat → Cursor → Except Fault (List Token)
  | 0, _ => .ok []
  | fuel + 1, c =>
    if c.atEnd then .ok []
    else do
      let (token, after) ← step s c
      let tokens ← scan s fuel after
      return token.toList ++ tokens

/-- A view that has been read. -/
structure Tokenized where
  tokens : List Token
  dialect : Dialect
  deriving DecidableEq, Repr

/-- The view to be read in a text, whose byte order mark is left out. -/
def source (file : String) (text : List Char) (options : Options) : Source :=
  let t := stripMark text
  ⟨file, t, .of t, detectDialect t options.forceXml, options.attributes⟩

/-- The tokens of a view, or a diagnostic on the first malformed construct.  Every construct
takes a character, so the text bounds their number. -/
def tokenize (file : String) (text : List Char) (options : Options) :
    Except Diagnostic Tokenized :=
  let s := source file text options
  match scan s s.text.length ⟨0, s.text⟩ with
  | .error fault => .error (s.diagnostic fault)
  | .ok tokens =>
    .ok ⟨if s.dialect = .html then normalizeVoid tokens else tokens, s.dialect⟩

end ViewLint.Markup
