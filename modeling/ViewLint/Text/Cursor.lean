import ViewLint.Text.Blank

/-!
# Cursors

A cursor is a place in a text: how many characters lie behind it, and the text ahead.

## Main definitions

* `Cursor` — the places, with `drop`, `skipWhile`, `takeWhile` and `startsWith`.
* `indexOf?` — where a text first occurs in another.
* `pieces` — a text cut at separators.
-/

namespace ViewLint.Text

/-- The number of characters before the first occurrence of `pattern`. -/
def indexOf? (pattern : List Char) : List Char → Option Nat
  | [] => if pattern.isEmpty then some 0 else none
  | c :: t => if pattern.isPrefixOf (c :: t) then some 0 else (indexOf? pattern t).map (· + 1)

/-- The stretches of a text between separators, empty ones included. -/
def pieces (isSeparator : Char → Bool) : List Char → List (List Char)
  | [] => [[]]
  | c :: t =>
    if isSeparator c then [] :: pieces isSeparator t
    else
      match pieces isSeparator t with
      | [] => [[c]]
      | w :: ws => (c :: w) :: ws

/-- A place in a text: the number of characters behind it, and the text ahead. -/
structure Cursor where
  pos : Nat
  rest : List Char
  deriving DecidableEq, Repr, Inhabited

namespace Cursor

/-- Moves over `n` characters, or to the end if there are fewer. -/
def drop (c : Cursor) (n : Nat) : Cursor := ⟨c.pos + (c.rest.take n).length, c.rest.drop n⟩

/-- Moves over the characters that satisfy a predicate. -/
def skipWhile (p : Char → Bool) (c : Cursor) : Cursor := c.drop (c.rest.takeWhile p).length

/-- The end of the text. -/
def stop (c : Cursor) : Nat := c.pos + c.rest.length

/-- Moves to the end of the text. -/
def toEnd (c : Cursor) : Cursor := ⟨c.stop, []⟩

/-- Whether the text ahead begins with `pattern`. -/
def startsWith (c : Cursor) (pattern : String) : Bool := pattern.toList.isPrefixOf c.rest

/-- Whether nothing is ahead. -/
def atEnd (c : Cursor) : Bool := c.rest.isEmpty

end Cursor

end ViewLint.Text
