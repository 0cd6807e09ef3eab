import ViewLint.Script.Statement

/-!
# Accepted expressions

The knot of the grammar: the rules of one nesting level in terms of those of the levels below,
down to the level at which nothing is accepted.  Every place of a script is read on the level
that the rest of the script calls for, however deep the place is nested.  So what is read from a
place on does not depend on what stands before it.

## Main definitions

* `Reader.depth` — the level that the rest of a script calls for.
* `Rules.unfold` — the rules one level up.
* `Rules.level` — the rules for scripts that nest at most so deep.
* `Rules.tied` — the rules of the grammar.
* `expression?` — the expression that a text begins with, which makes the grammar a
  `ScriptParser`.
-/

namespace ViewLint.Script

/-- The level that the script from a place on calls for.  Every two levels of nesting cost at
least one character. -/
def Reader.depth (r : Reader) : Nat := 4 * r.here.length + 8

/-- The rules of a level in terms of those of the levels below. -/
def Rules.unfold (g : Rules) : Rules where
  assignment := Script.assignment g
  binary := Script.binary g
  unary := Script.unary g
  operand := Script.operand g
  creation := Script.creation g
  pattern := Script.pattern g
  statement := Script.statement g
  type := Script.type g
  typeOperand := Script.typeOperand g

/-- The rules that read every place on the level that it calls for. -/
def Rules.byDepth (levels : Nat → Rules) : Rules where
  assignment m typed := fun r => (levels r.depth).assignment m typed r
  binary m least := fun r => (levels r.depth).binary m least r
  unary m := fun r => (levels r.depth).unary m r
  operand m := fun r => (levels r.depth).operand m r
  creation m := fun r => (levels r.depth).creation m r
  pattern m := fun r => (levels r.depth).pattern m r
  statement m single := fun r => (levels r.depth).statement m single r
  type m := fun r => (levels r.depth).type m r
  typeOperand m := fun r => (levels r.depth).typeOperand m r

/-- The rules for scripts that nest at most `n` levels deep. -/
def Rules.level (n : Nat) : Rules :=
  match n with
  | 0 => .none
  | n + 1 => (Rules.byDepth fun k => Rules.level (min n k)).unfold
termination_by n
decreasing_by omega

/-- The rules of the grammar. -/
def Rules.tied : Rules := .byDepth .level

/-- The expression that a text begins with.  What follows it is not read, but for the one
lexeme that shows where it ends.  Every shorthand member with an initialiser must have become
part of an assignment. -/
def expression? (t : List Char) : Option Expr := do
  let r ← Reader.ofText t
  let (e, ⟨r', _⟩) ← expression .tied .toplevel r
  if r'.pending.isEmpty then some e else none

/-- The grammar as a parser, which has no wording for its errors. -/
instance : ScriptParser where
  expression t := (expression? t).elim (.error none) .ok

end ViewLint.Script
