import ViewLint.Script.Scan

/-!
# Parsers that only move forward

A reader stands at one lexeme of a script and remembers where the lexeme before it ended.
A parser turns a reader into a later reader of the same script.  That it never goes back
is part of its type, so that whatever a grammar built from parsers reports about places in
the script is in order and inside the script by construction.

Places are counted in characters from the start of the script.

## Main definitions

* `Reader` — a place in a script; `Reader.Reaches` — one place comes after another.
* `Parser` — functions from readers to later readers, with the monad that runs one
  parser after the other.
* `advance`, `rescan` — reading on, and reading the lexeme at hand in another way.
* `attempt`, `lookahead` — trying a parser, and asking it without moving.
* `iterate` — repetition, bounded by the characters that are left.
-/

namespace ViewLint.Script

/-- A place in a script. -/
structure Reader where
  /-- The number of characters of the script. -/
  total : Nat
  /-- The lexeme at hand. -/
  lexeme : Lexeme
  /-- Whether a line ended just before that lexeme. -/
  ended : Bool
  /-- The script from that lexeme on. -/
  here : List Char
  /-- The script behind that lexeme. -/
  rest : List Char
  /-- Where the lexeme before it ended. -/
  last : Nat
  /-- Shorthand members with an initialiser that no assignment has settled so far. -/
  pending : List Nat
  /-- The lexeme before it ended before this one starts. -/
  last_le : last ≤ total - here.length
  /-- The lexeme stands in the script. -/
  here_le : here.length ≤ total
  /-- The lexeme has as many characters as lexemes of its kind have at least. -/
  width_le : rest.length + lexeme.width ≤ here.length

namespace Reader

/-- Where the lexeme at hand starts. -/
def start (r : Reader) : Nat := r.total - r.here.length

/-- Where the lexeme at hand ends. -/
def stop (r : Reader) : Nat := r.total - r.rest.length

/-- The lexeme at hand has as many characters as lexemes of its kind have at least. -/
theorem start_add_width_le (r : Reader) : r.start + r.lexeme.width ≤ r.stop := by
  have := r.here_le
  have := r.width_le
  unfold start stop
  omega

theorem start_le_stop (r : Reader) : r.start ≤ r.stop :=
  Nat.le_trans (Nat.le_add_right _ _) r.start_add_width_le

/-- `r'` is a place of the same script as `r`, at or behind it. -/
structure Reaches (r r' : Reader) : Prop where
  total_eq : r'.total = r.total
  last_le : r.last ≤ r'.last
  start_le : r.start ≤ r'.start

theorem Reaches.refl (r : Reader) : r.Reaches r := ⟨rfl, Nat.le_refl _, Nat.le_refl _⟩

theorem Reaches.trans {r s t : Reader} (h : r.Reaches s) (k : s.Reaches t) : r.Reaches t :=
  ⟨k.total_eq.trans h.total_eq, Nat.le_trans h.last_le k.last_le,
    Nat.le_trans h.start_le k.start_le⟩

/-- The same place with other unsettled members. -/
def withPending (r : Reader) (pending : List Nat) : Reader := { r with pending }

theorem reaches_withPending (r : Reader) (p : List Nat) : r.Reaches (r.withPending p) :=
  ⟨rfl, Nat.le_refl _, Nat.le_refl _⟩

/-- The place at the next lexeme, which must lie in the rest of the script. -/
def next? (r : Reader) : Option { r' : Reader // r.Reaches r' } := do
  let found ← lex? r.rest
  if h : found.here.length ≤ r.rest.length ∧
      found.rest.length + found.lexeme.width ≤ found.here.length then
    some ⟨{ total := r.total, lexeme := found.lexeme, ended := found.ended, here := found.here,
            rest := found.rest, last := r.stop, pending := r.pending,
            last_le := by unfold stop; omega,
            here_le := by have := r.here_le; have := r.width_le; omega, width_le := h.2 },
      ⟨rfl, Nat.le_trans r.last_le r.start_le_stop,
        by have := r.width_le; show r.total - r.here.length ≤ r.total - found.here.length; omega⟩⟩
  else none

/-- The same place with another reading of the lexeme at hand. -/
def reread? (r : Reader) (lexeme : Lexeme) (rest : List Char) :
    Option { r' : Reader // r.Reaches r' } :=
  if h : rest.length + lexeme.width ≤ r.here.length then
    some ⟨{ r with lexeme, rest, width_le := h }, ⟨rfl, Nat.le_refl _, Nat.le_refl _⟩⟩
  else none

/-- The place before the first lexeme of a script, and then the place at it. -/
def ofText (t : List Char) : Option Reader := do
  let found ← lex? t
  if h : found.here.length ≤ t.length ∧
      found.rest.length + found.lexeme.width ≤ found.here.length then
    some { total := t.length, lexeme := found.lexeme, ended := found.ended, here := found.here,
           rest := found.rest, last := 0, pending := [], last_le := Nat.zero_le _,
           here_le := h.1, width_le := h.2 }
  else none

end Reader

/-- A parser: it fails, or answers at a place that the given one reaches. -/
def Parser (α : Type) : Type := (r : Reader) → Option (α × { r' : Reader // r.Reaches r' })

namespace Parser

variable {α β σ : Type}

/-- Answers without reading. -/
def result (a : α) : Parser α := fun r => some (a, ⟨r, .refl r⟩)

/-- Runs one parser and then another on its answer. -/
def next (p : Parser α) (f : α → Parser β) : Parser β := fun r =>
  match p r with
  | none => none
  | some (a, ⟨s, hs⟩) =>
    match f a s with
    | none => none
    | some (b, ⟨t, ht⟩) => some (b, ⟨t, hs.trans ht⟩)

instance : Monad Parser where
  pure := result
  bind := next

/-- The parser that accepts nothing. -/
def reject : Parser α := fun _ => none

instance : Inhabited (Parser α) := ⟨reject⟩

/-- Goes on only if a condition holds. -/
def require (b : Bool) : Parser Unit := if b then pure () else reject

/-- The place at hand. -/
def look : Parser Reader := fun r => some (r, ⟨r, .refl r⟩)

/-- The lexeme at hand. -/
def peek : Parser Lexeme := do return (← look).lexeme

/-- Reads on to the next lexeme. -/
def advance : Parser Unit := fun r => (r.next?).map fun r' => ((), r')

/-- Reads the lexeme at hand in the way `f` says of the script from it on. -/
def rescan (f : List Char → Option (Lexeme × List Char)) : Parser Unit := fun r => do
  let (lexeme, rest) ← f r.here
  (r.reread? lexeme rest).map fun r' => ((), r')

/-- Where the lexeme at hand starts. -/
def here : Parser Nat := do return (← look).start

/-- Where the lexeme before the one at hand ended. -/
def behind : Parser Nat := do return (← look).last

/-- Whether a line ended just before the lexeme at hand. -/
def lineEnded : Parser Bool := do return (← look).ended

/-- Notes a shorthand member whose initialiser has to be settled by an assignment. -/
def postpone (place : Nat) : Parser Unit := fun r =>
  some ((), ⟨r.withPending (place :: r.pending), r.reaches_withPending _⟩)

/-- Settles the members at the given places. -/
def settle (places : List Nat) : Parser Unit := fun r =>
  some ((), ⟨r.withPending (r.pending.filter (!places.contains ·)), r.reaches_withPending _⟩)

/-- Runs a parser, or stays where it is if that fails. -/
def attempt (p : Parser α) : Parser (Option α) := fun r =>
  match p r with
  | some (a, r') => some (some a, r')
  | none => some (none, ⟨r, .refl r⟩)

/-- The answer that a parser would give here, without moving. -/
def lookahead (p : Parser α) : Parser (Option α) := fun r =>
  some ((p r).map (·.1), ⟨r, .refl r⟩)

/-- Repeats a step until it answers, at most `fuel` times. -/
def repeated (step : σ → Parser (σ ⊕ α)) : Nat → σ → Parser α
  | 0, _ => reject
  | fuel + 1, s => do
    match ← step s with
    | .inl s => repeated step fuel s
    | .inr a => return a

/-- Repeats a step until it answers.  Every round but the last reads a lexeme, so the
characters that are left bound their number. -/
def iterate (step : σ → Parser (σ ⊕ α)) (s : σ) : Parser α := do
  repeated step ((← look).here.length + 2) s

/-! ### Symbols and reserved words -/

/-- Whether a lexeme is the given symbol or reserved word. -/
def isSymbol (s : String) : Lexeme → Bool
  | .symbol t => s == t
  | .word t escaped => s == t && !escaped
  | _ => false

/-- Whether the lexeme at hand is the given symbol or reserved word. -/
def at? (s : String) : Parser Bool := do return isSymbol s (← peek)

/-- Whether the lexeme at hand is one of the given symbols or reserved words. -/
def atAny (ss : List String) : Parser Bool := do
  let l ← peek
  return ss.any (isSymbol · l)

/-- Reads the given symbol or reserved word if it is at hand. -/
def eat (s : String) : Parser Bool := do
  if ← at? s then
    advance
    return true
  else return false

/-- Reads the given symbol or reserved word, which must be at hand. -/
def expect (s : String) : Parser Unit := do require (← eat s)

/-- Reads items that commas separate, up to a closing symbol, which is left.  The answer
tells whether a comma follows the last item. -/
def separated (close : String) (item : Parser α) : Parser (List α × Bool) := do
  if ← at? close then return ([], false)
  let first ← item
  let step (found : List α) : Parser (List α ⊕ List α × Bool) := do
    if ← at? close then return .inr (found.reverse, false)
    expect ","
    if ← at? close then return .inr (found.reverse, true)
    let a ← item
    return .inl (a :: found)
  iterate step [first]

/-- A parser between an opening and a closing symbol. -/
def enclosed (opening closing : String) (p : Parser α) : Parser α := do
  expect opening
  let a ← p
  expect closing
  return a

end Parser

end ViewLint.Script
