/-!
# Expressions, as far as the rules look at them

The grammar recognises whole expressions but records of them only what some later rule
asks for: whether a literal can become the target of an assignment, which operator stands
at the top of an unparenthesised operand, and the properties of an object literal.  What reads
the bindings of a view takes the grammar as an argument.

## Main definitions

* `Expr`, `Property` — expressions and the members of an object literal.
* `Expr.isSimpleTarget`, `Expr.isTarget` — what may be assigned to.
* `Expr.initialised` — the places of the shorthand members with an initialiser that
  become legal when the literal is taken as a target.
* `ScriptParser` — a parser of expressions.
-/

namespace ViewLint.Script

/-- The name of a member. -/
inductive Label where
  /-- An identifier. -/
  | name (text : String)
  /-- A string. -/
  | quote (text : String)
  /-- A number, or any other expression. -/
  | other
  deriving DecidableEq, Repr, Inhabited

/-- The key of a member: its name, whether it is an expression in brackets, and the
characters it covers. -/
structure Key where
  label : Label
  computed : Bool
  start : Nat
  stop : Nat
  deriving DecidableEq, Repr, Inhabited

mutual

/-- An expression. -/
inductive Expr where
  /-- A reference to a name. -/
  | name
  /-- A string with the text it denotes. -/
  | quote (value : String)
  /-- An access to a member outside an optional chain. -/
  | member
  /-- An array literal; `trailing` tells whether a comma ends it. -/
  | array (items : List Expr) (trailing : Bool)
  /-- A place of an array literal that is left out. -/
  | hole
  /-- An element that is spread into an array literal. -/
  | spread (argument : Expr)
  /-- An object literal; `trailing` tells whether a comma ends it. -/
  | object (properties : List Property) (trailing : Bool)
  /-- An expression in parentheses. -/
  | paren (inner : Expr)
  /-- An assignment, whose target has been found right; `plain` if its operator is `=`. -/
  | assign (plain : Bool)
  /-- An expression with a type attached to it. -/
  | typed (inner : Expr)
  /-- An expression with type arguments attached to it. -/
  | instantiated (inner : Expr)
  /-- An operand with a word or sign in front, which a power may not begin with. -/
  | signed
  /-- Two operands joined by the operator `??`. -/
  | coalesced
  /-- Two operands joined by one of the operators `&&` and `||`. -/
  | joined
  /-- A call by the word `import`. -/
  | importCall
  /-- An optional chain. -/
  | chain
  /-- Any other expression. -/
  | other

/-- A member of an object literal. -/
inductive Property where
  /-- An object that is spread into the literal. -/
  | spread (argument : Expr)
  /-- A key with a value, which covers the characters from `start` to `stop`. -/
  | entry (key : Key) (value : Expr) (start stop : Nat)
  /-- A name that is both key and value; `initialised` if an initialiser follows it. -/
  | shorthand (key : Key) (initialised : Bool)
  /-- A method or an accessor; its value begins at its parameters. -/
  | method (key : Key) (start stop : Nat)

end

instance : Inhabited Expr := ⟨.other⟩

namespace Expr

/-- The expression inside all parentheses and type annotations. -/
def core : Expr → Expr
  | .paren e => e.core
  | .typed e => e.core
  | .instantiated e => e.core
  | e => e

/-- A name or a member, possibly in parentheses or with a type attached: what a compound
assignment and an increment can change. -/
def isSimpleTarget : Expr → Bool
  | .name => true
  | .member => true
  | .paren e => e.isSimpleTarget
  | .typed e =>
    match e.core with
    | .name => true
    | .member => true
    | _ => false
  | _ => false

mutual

/-- What may stand on the left of `=`: a simple target, or a literal whose parts are
targets in turn. -/
def isTarget : Expr → Bool
  | .array items trailing => areElements items trailing
  | .object properties trailing => areMembers properties trailing
  | .name => true
  | .member => true
  | .paren e => e.isSimpleTarget
  | .typed e =>
    match e.core with
    | .name => true
    | .member => true
    | _ => false
  | _ => false

/-- The elements of a literal as targets: only the last may be spread, and then no comma
follows it. -/
def areElements : List Expr → Bool → Bool
  | [], _ => true
  | [.spread e], trailing => !trailing && e.isTarget
  | .hole :: es, trailing => areElements es trailing
  | .assign plain :: es, trailing => plain && areElements es trailing
  | e :: es, trailing => e.isTarget && areElements es trailing

/-- The members of a literal as targets: only the last may be spread, onto a simple target,
and then no comma follows it. -/
def areMembers : List Property → Bool → Bool
  | [], _ => true
  | [.spread e], trailing => !trailing && e.isSimpleTarget
  | .spread _ :: _, _ => false
  | .shorthand _ _ :: ps, trailing => areMembers ps trailing
  | .method _ _ _ :: _, _ => false
  | .entry _ (.assign plain) _ _ :: ps, trailing => plain && areMembers ps trailing
  | .entry _ e _ _ :: ps, trailing => e.isTarget && areMembers ps trailing

end

mutual

/-- The places of the initialised shorthand members that are settled when the expression is
taken as a target. -/
def initialised : Expr → List Nat
  | .array items _ => initialisedItems items
  | .object properties _ => initialisedMembers properties
  | .spread e => e.initialised
  | _ => []

/-- The same for the elements of a literal. -/
def initialisedItems : List Expr → List Nat
  | [] => []
  | e :: es => e.initialised ++ initialisedItems es

/-- The same for the members of a literal. -/
def initialisedMembers : List Property → List Nat
  | [] => []
  | .shorthand key true :: ps => key.start :: initialisedMembers ps
  | .entry _ e _ _ :: ps => e.initialised ++ initialisedMembers ps
  | _ :: ps => initialisedMembers ps

end

end Expr

end ViewLint.Script

namespace ViewLint

/-- A parser of expressions. -/
class ScriptParser where
  /-- The expression that a text begins with, or the wording of the first error, if it has one. -/
  expression : List Char → Except (Option String) Script.Expr

end ViewLint
