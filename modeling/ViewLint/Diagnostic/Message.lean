/-!
# Messages from templates

A template holds numbered places `$0`, `$1`, … for the arguments of a message.  The places
are filled one number after the other, the highest first, so that `$1` does not take the
first two characters of `$10` if there is an argument for it.  A place that an argument brings
in is filled too when its number is still to come.

## Main definitions

* `replaceAll` — puts a text in the place of every occurrence of another.
* `fillTemplate` — the message that a template and its arguments make.
-/

namespace ViewLint

/-- Replaces the occurrences of `pattern`, from the left and without overlap.  `pending`
characters of an occurrence that has been replaced are still to be skipped. -/
def replaceFrom (pattern replacement : List Char) : Nat → List Char → List Char
  | _, [] => []
  | pending + 1, _ :: t => replaceFrom pattern replacement pending t
  | 0, c :: t =>
    if pattern.isPrefixOf (c :: t) then
      replacement ++ replaceFrom pattern replacement (pattern.length - 1) t
    else c :: replaceFrom pattern replacement 0 t

/-- The text with every occurrence of a pattern replaced. -/
def replaceAll (pattern replacement t : List Char) : List Char :=
  replaceFrom pattern replacement 0 t

/-- The place for the argument with a given number. -/
def placeholder (i : Nat) : List Char := '$' :: (Nat.repr i).toList

/-- Fills the places of a template, the highest number first. -/
def fillPlaces (template : List Char) (arguments : List (List Char)) : List Char :=
  arguments.zipIdx.foldr (fun (argument, i) message => replaceAll (placeholder i) argument message)
    template

/-- The message that a template and its arguments make. -/
def fillTemplate (template : String) (arguments : List String) : String :=
  .ofList (fillPlaces template.toList (arguments.map String.toList))

end ViewLint
