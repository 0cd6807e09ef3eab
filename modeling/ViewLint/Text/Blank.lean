/-!
# Blank characters and names

The character classes that markup and directives are read with.

## Main definitions

* `isBlank` — white space in the sense of Unicode's `White_Space` property; it
  separates the words of a comment.
* `isMarkupBlank` — the five white-space characters of markup.
* `isNameStart`, `isNamePart` — the characters of an identifier in a directive.
* `trimStart`, `trimEnd` — a text without its outer blanks.
-/

namespace ViewLint.Text

/-- White space by Unicode's `White_Space` property. -/
def isBlank (c : Char) : Bool :=
  let n := c.toNat
  (0x09 ≤ n && n ≤ 0x0D) || n == 0x20 || n == 0x85 || n == 0xA0 || n == 0x1680 ||
    (0x2000 ≤ n && n ≤ 0x200A) || n == 0x2028 || n == 0x2029 || n == 0x202F ||
    n == 0x205F || n == 0x3000

/-- White space inside a tag: space, tab, line feed, form feed and carriage return. -/
def isMarkupBlank (c : Char) : Bool :=
  c == ' ' || c == '\t' || c == '\n' || c == '\x0c' || c == '\r'

/-- A character that can begin an identifier of a directive. -/
def isNameStart (c : Char) : Bool :=
  c.isAlpha || c == '_' || c == '$'

/-- A character that can continue an identifier of a directive. -/
def isNamePart (c : Char) : Bool :=
  c.isAlphanum || c == '_' || c == '$'

/-- The text without its leading blanks. -/
def trimStart (t : List Char) : List Char := t.dropWhile isBlank

/-- The text without its trailing blanks. -/
def trimEnd (t : List Char) : List Char := (t.reverse.dropWhile isBlank).reverse

end ViewLint.Text
