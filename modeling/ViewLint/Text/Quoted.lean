import ViewLint.Text.Hex

/-!
# Quoted text

A text as a string literal in double quotes, in the form that both scripts and JSON read.
Quotes, backslashes and control characters are escaped; everything else stands for itself.

## Main definitions

* `quote` — the literal of a text.
-/

namespace ViewLint.Text

/-- A character as it stands in a literal. -/
def quoteChar (c : Char) : List Char :=
  if c = '\x22' then ['\\', '\x22']
  else if c = '\\' then ['\\', '\\']
  else if c = '\x08' then ['\\', 'b']
  else if c = '\t' then ['\\', 't']
  else if c = '\n' then ['\\', 'n']
  else if c = '\x0c' then ['\\', 'f']
  else if c = '\r' then ['\\', 'r']
  else if c.toNat < 0x20 then '\\' :: 'u' :: hexDigits4 c.toNat
  else [c]

/-- The literal of a text. -/
def quote (s : String) : String :=
  .ofList ('\x22' :: s.toList.flatMap quoteChar ++ ['\x22'])

end ViewLint.Text
