import ViewLint.Markup.Fault

/-!
# Tags

Start tags with their attributes, and end tags.  In HTML the names of tags and attributes
do not depend on case.

## Main definitions

* `tagName?` — the name that a text begins with.
* `oneAttribute` — one attribute of a start tag.
* `startTag`, `endTag` — whole tags.
-/

namespace ViewLint.Markup

open Text

/-- A character that can begin the name of a tag. -/
def beginsTag (c : Char) : Bool := c.isAlpha || c == '_'

/-- A character that can continue the name of a tag. -/
def continuesTag (c : Char) : Bool :=
  c.isAlphanum || c == '_' || c == ':' || c == '.' || c == '-'

/-- A text as HTML compares names. -/
def lower (t : List Char) : List Char := t.map Char.toLower

/-- The name of the tag that a text begins with. -/
def tagName? (t : List Char) : Option (List Char) :=
  match t with
  | [] => none
  | c :: r => if beginsTag c then some (c :: r.takeWhile continuesTag) else none

/-- The name of a tag as the dialect compares it. -/
def Source.tag (s : Source) (name : List Char) : String :=
  match s.dialect with
  | .html => .ofList (lower name)
  | .xml => .ofList name

/-- Whether an attribute holds bindings. -/
def Source.isBinding (s : Source) (name : List Char) : Bool :=
  match s.dialect with
  | .html => s.attributes.any fun a => lower a.toList == lower name
  | .xml => s.attributes.any fun a => a.toList == name

/-- An end tag, at its opening bracket. -/
def endTag (s : Source) (c : Cursor) : Except Fault (Token × Cursor) :=
  let named := c.drop 2
  match tagName? named.rest with
  | none => stopAt named .tagName .endOfInput .endTag
  | some name =>
    let last := (named.drop name.length).skipWhile isMarkupBlank
    if last.rest.head? = some '>' then
      let after := last.drop 1
      .ok (.element
        { tag := s.tag name, type := .stop, location := s.location c.pos after.pos,
          bindings := [], isVirtual := false }, after)
    else stopAt last (.literal ">") .endOfInput .endTag

/-! ### Attributes -/

/-- A character that ends the name of an attribute. -/
def endsAttributeName (c : Char) : Bool :=
  c == '=' || c == '>' || c == '/' || c == '\x22' || c == '\x27' || isMarkupBlank c

/-- A character that ends a value without quotes. -/
def endsBareValue (c : Char) : Bool := c == '>' || isMarkupBlank c

/-- The value of an attribute: the numbers of its first character and of the one behind it,
and the cursor behind the value. -/
def attributeValue (c : Cursor) : Except Fault (Nat × Nat × Cursor) :=
  match c.rest with
  | [] => stopAt c .attributeValue .endOfInput .startTag
  | quote :: t =>
    if quote = '\x22' ∨ quote = '\x27' then
      match indexOf? [quote] t with
      | some n => .ok (c.pos + 1, c.pos + 1 + n, c.drop (n + 2))
      | none => stopAt c.toEnd (.closingQuote quote) .endOfInput .openValue
    else
      let n := (c.rest.takeWhile (!endsBareValue ·)).length
      .ok (c.pos, c.pos + n, c.drop n)

/-- An attribute, at its name: the binding it holds, if any, and the cursor behind it. -/
def oneAttribute (s : Source) (c : Cursor) : Except Fault (Option Payload × Cursor) := do
  let name := c.rest.takeWhile (!endsAttributeName ·)
  let sign := (c.drop name.length).skipWhile isMarkupBlank
  if sign.rest.head? ≠ some '=' then return (none, sign)
  let (start, stop, after) ← attributeValue ((sign.drop 1).skipWhile isMarkupBlank)
  if s.isBinding name then
    let value := s.ident start stop
    return (some ⟨value.location, value.value⟩, after)
  else return (none, after)

/-- The attributes of a start tag and its end, at most `fuel` steps: the type of the tag,
its bindings, and the cursor behind it. -/
def attributes (s : Source) : Nat → Cursor → Except Fault (TagType × List Payload × Cursor)
  | 0, c => .ok (.start, [], c)
  | fuel + 1, c => do
    let c := c.skipWhile isMarkupBlank
    match c.rest with
    | [] => stopAt c (.literal ">") .endOfInput .openStartTag
    | '/' :: '>' :: _ => return (.empty, [], c.drop 2)
    | '>' :: _ => return (.start, [], c.drop 1)
    | '/' :: _ => attributes s fuel (c.drop 1)
    | next :: _ =>
      if next = '\x22' ∨ next = '\x27' ∨ next = '=' then
        stopAt c .attributeName .endOfInput .startTag
      else
        let (binding, after) ← oneAttribute s c
        let (type, bindings, last) ← attributes s fuel after
        return (type, binding.toList ++ bindings, last)

/-! ### Start tags -/

/-- Whether the content of an element is not markup. -/
def Source.isRaw (s : Source) (tag : String) (type : TagType) : Bool :=
  s.dialect == .html && type == .start && (tag == "script" || tag == "style")

/-- The cursor at the tag that ends raw content, or at the end of the text. -/
def skipRaw (tag : String) (c : Cursor) : Cursor :=
  match indexOf? ('<' :: '/' :: tag.toList) (lower c.rest) with
  | some n => c.drop n
  | none => c.toEnd

/-- A start tag, at its opening bracket.  Every attribute takes a character, so the text ahead
bounds their number. -/
def startTag (s : Source) (c : Cursor) : Except Fault (Token × Cursor) :=
  let named := c.drop 1
  match tagName? named.rest with
  | none => stopAt named .tagName .endOfInput .startTag
  | some name => do
    let (type, bindings, after) ← attributes s (c.rest.length + 1) (named.drop name.length)
    let tag := s.tag name
    let token : Token := .element
      { tag := tag, type := type, location := s.location c.pos after.pos,
        bindings := bindings, isVirtual := false }
    return (token, if s.isRaw tag type then skipRaw tag after else after)

end ViewLint.Markup
