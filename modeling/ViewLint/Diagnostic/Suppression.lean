import ViewLint.Diagnostic.Basic
import ViewLint.Search
import ViewLint.Text.NameSet

/-!
# Suppressed diagnostics

Directives in a view silence diagnostics, or let them pass again, from the directive to the
end of the view.  A directive without keys speaks about all diagnostics.

## Main definitions

* `Suppression` — which diagnostics are silent at one place, with `disable`, `enable` and
  `allows`.
* `Timeline` — the states of a view, each from the offset at which it begins.
-/

namespace ViewLint

/-- Which diagnostics are silent.  Either all are but those enabled, or none is but those
disabled. -/
structure Suppression where
  all : Bool
  disabled : NameSet
  enabled : NameSet
  deriving DecidableEq

namespace Suppression

/-- Nothing is silent. -/
def initial : Suppression := ⟨false, .empty, .empty⟩

instance : Inhabited Suppression := ⟨initial⟩

/-- Silences the given keys, or everything if there are none. -/
def disable (s : Suppression) (keys : List String) : Suppression :=
  if keys.isEmpty then { s with all := true, enabled := .empty }
  else if s.all then { s with enabled := s.enabled.eraseMany keys }
  else { s with disabled := s.disabled.insertMany keys }

/-- Lets the given keys pass, or everything if there are none. -/
def enable (s : Suppression) (keys : List String) : Suppression :=
  if keys.isEmpty then { s with all := false, disabled := .empty }
  else if s.all then { s with enabled := s.enabled.insertMany keys }
  else { s with disabled := s.disabled.eraseMany keys }

/-- Whether a diagnostic passes. -/
def allows (s : Suppression) (d : Diagnostic) : Bool :=
  if s.all then s.enabled.toList.any d.matchesKey
  else !s.disabled.toList.any d.matchesKey

end Suppression

/-- The states of a view in the order in which they were recorded, each with the offset from
which it holds. -/
structure Timeline where
  marks : Array (Nat × Suppression)
  deriving DecidableEq

namespace Timeline

/-- At the start of a view nothing is silent. -/
def initial : Timeline := ⟨#[(0, .initial)]⟩

instance : Inhabited Timeline := ⟨initial⟩

/-- Records the state that holds from an offset on. -/
def push (t : Timeline) (offset : Nat) (state : Suppression) : Timeline :=
  ⟨t.marks.push (offset, state)⟩

/-- The state in force at an offset. -/
def stateAt (t : Timeline) (offset : Nat) : Suppression :=
  let place := bisect (fun mark => mark.1 ≤ offset) t.marks
  (t.marks[place - 1]?.map (·.2)).getD .initial

/-- The state recorded last. -/
def last (t : Timeline) : Suppression := (t.marks.back?.map (·.2)).getD .initial

/-- Whether a diagnostic passes: by the state at its place, or else by the last one. -/
def allows (t : Timeline) (d : Diagnostic) : Bool :=
  match d.location with
  | some l => (t.stateAt l.start).allows d
  | none => t.last.allows d

end Timeline

end ViewLint
