import Mathlib.Data.List.Induction
import ViewLint.Diagnostic.Suppression

/-!
# What lint directives let pass

A lint directive is about the keys that it lists, or about everything if it lists none.  For a
single key the last directive about it decides.  A state does not keep this word for every key: it
has a default, which is the word of the last directive without keys, and the keys whose word is
another one.  A diagnostic goes by two keys, its code and its name, and it is an exception as soon
as one of them is.  So where the last words about its two keys differ, the one that is not the
default decides, even if the other one has been said later.

A state keeps two sets of keys, and the default says which of them holds the exceptions.  A
directive without keys empties the one that is now in use and leaves the other one as it is.  What
is left there never counts again: before that set comes into use, it is emptied.

## Main definitions

* `Ruling` — what a lint directive says.
* `Suppression.obey`, `Suppression.after` — the state behind one directive and behind some of them.
* `lastWord` — what the last directive of some sort says.
* `Suppression.passes` — whether a state lets a single key pass.
* `Suppression.live`, `Suppression.idle` — the keys that are exceptions, and those that do not
  count.
* `Suppression.Agree` — two states differ at most in keys that do not count.

## Main results

* `Suppression.passes_obey`, `Suppression.passes_after` — for a single key the last directive
  decides.
* `Suppression.allows_eq` — a diagnostic passes by its two keys.
* `last_directive_decides_iff` — when the last directive about a diagnostic decides.
* `Suppression.Agree.obey`, `Suppression.Agree.foldl` — states that agree go on to do so.
* `keyless_directive_forgets` — what has been said before a directive without keys does not count.
-/

namespace ViewLint

/-- What a lint directive says: the keys that it is about, and whether they pass.  Without keys it
is about everything. -/
structure Ruling where
  keys : List String
  enable : Bool
  deriving DecidableEq, Repr

namespace Ruling

/-- Whether a directive is about everything. -/
def sweeping (x : Ruling) : Bool := x.keys.isEmpty

/-- Whether a directive is about a key. -/
def covers (x : Ruling) (key : String) : Bool := x.sweeping || x.keys.contains key

/-- Whether a directive is about a diagnostic: it lists no keys, or its code or its name. -/
def speaksOf (x : Ruling) (d : Diagnostic) : Bool := x.sweeping || x.keys.any d.matchesKey

/-- A directive is about a diagnostic if it is about one of its two keys. -/
theorem speaksOf_eq (x : Ruling) (d : Diagnostic) :
    x.speaksOf d = (x.covers d.code || x.covers d.name) := by
  have hkeys : x.keys.any d.matchesKey = (x.keys.contains d.code || x.keys.contains d.name) := by
    rw [Bool.eq_iff_iff]
    simp [Diagnostic.matchesKey, and_or_left, exists_or]
  rw [speaksOf, hkeys, covers, covers]
  cases x.sweeping <;> simp

end Ruling

/-- What the last of the directives of some sort says.  If there is none, everything passes. -/
def lastWord (sort : Ruling → Bool) (xs : List Ruling) : Bool :=
  (xs.reverse.find? sort).all (·.enable)

@[simp] theorem lastWord_nil (sort : Ruling → Bool) : lastWord sort [] = true := rfl

@[simp] theorem lastWord_concat (sort : Ruling → Bool) (xs : List Ruling) (x : Ruling) :
    lastWord sort (xs ++ [x]) = if sort x then x.enable else lastWord sort xs := by
  unfold lastWord
  rw [List.reverse_append, List.reverse_singleton, List.singleton_append, List.find?_cons]
  cases sort x <;> rfl

/-- The last word about a diagnostic is the last one about one of its two keys. -/
theorem lastWord_speaksOf (d : Diagnostic) (xs : List Ruling) :
    lastWord (·.speaksOf d) xs = lastWord (·.covers d.code) xs ∨
      lastWord (·.speaksOf d) xs = lastWord (·.covers d.name) xs := by
  induction xs using List.reverseRecOn with
  | nil => exact .inl rfl
  | append_singleton xs x ih =>
    simp only [lastWord_concat, x.speaksOf_eq d]
    -- a directive about neither key changes no word
    cases x.covers d.code <;> cases x.covers d.name <;> simp [ih]

namespace Suppression

/-- The state behind a directive. -/
def obey (s : Suppression) (x : Ruling) : Suppression :=
  if x.enable then s.enable x.keys else s.disable x.keys

/-- The state behind some directives. -/
def after (xs : List Ruling) : Suppression := xs.foldl obey initial

theorem after_concat (xs : List Ruling) (x : Ruling) : after (xs ++ [x]) = (after xs).obey x := by
  rw [after, List.foldl_append, after]
  rfl

/-- Whether a state lets a key pass: by default if it does not list the key as an exception. -/
def passes (s : Suppression) (key : String) : Bool :=
  if s.all then decide (key ∈ s.enabled) else decide (key ∉ s.disabled)

/-! ### One directive -/

theorem all_obey (s : Suppression) (x : Ruling) :
    (s.obey x).all = if x.sweeping then !x.enable else s.all := by
  unfold obey enable disable Ruling.sweeping
  cases x.enable <;> cases x.keys.isEmpty <;> cases s.all <;> simp

/-- A directive decides about the keys that it is about, and leaves all others as they are. -/
theorem passes_obey (s : Suppression) (x : Ruling) (key : String) :
    (s.obey x).passes key = if x.covers key then x.enable else s.passes key := by
  unfold obey enable disable passes Ruling.covers Ruling.sweeping
  by_cases hsweeping : x.keys.isEmpty = true
  · -- the exceptions are dropped together with the default
    cases x.enable <;> simp [hsweeping]
  · -- exceptions are added or taken away, as the default asks for
    cases x.enable <;> cases s.all <;> by_cases hkey : key ∈ x.keys <;> simp [hsweeping, hkey]

/-! ### All directives -/

/-- The default is what the last directive without keys says. -/
theorem all_after (xs : List Ruling) : (after xs).all = !lastWord (·.sweeping) xs := by
  induction xs using List.reverseRecOn with
  | nil => rfl
  | append_singleton xs x ih =>
    rw [after_concat, all_obey, lastWord_concat, ih]
    cases x.sweeping <;> rfl

/-- For a single key the last directive about it decides. -/
theorem passes_after (xs : List Ruling) (key : String) :
    (after xs).passes key = lastWord (·.covers key) xs := by
  induction xs using List.reverseRecOn with
  | nil => rfl
  | append_singleton xs x ih => rw [after_concat, passes_obey, lastWord_concat, ih]

/-- A diagnostic passes if one of its keys does where everything is silent by default, and if both
do where nothing is. -/
theorem allows_eq (s : Suppression) (d : Diagnostic) :
    s.allows d = if s.all then s.passes d.code || s.passes d.name
      else s.passes d.code && s.passes d.name := by
  have hany : ∀ names : NameSet, names.toList.any d.matchesKey =
      (decide (d.code ∈ names) || decide (d.name ∈ names)) := by
    intro names
    rw [Bool.eq_iff_iff]
    simp [Diagnostic.matchesKey, and_or_left, exists_or, Membership.mem]
  unfold allows passes
  cases s.all <;> simp [hany]

end Suppression

/-- **When the last directive about a diagnostic decides.**  The last words about the code and about
the name of a diagnostic make up whether it passes: it has to be let pass by both where the last
directive without keys lets everything pass, and by one of them where it silences everything.  This
is what the last directive about the diagnostic says exactly if the two words agree, or if that
directive says the contrary of the last one without keys. -/
theorem last_directive_decides_iff (xs : List Ruling) (d : Diagnostic) :
    let code := lastWord (·.covers d.code) xs
    let name := lastWord (·.covers d.name) xs
    let default := lastWord (·.sweeping) xs
    (Suppression.after xs).allows d = (if default then code && name else code || name) ∧
    ((Suppression.after xs).allows d = lastWord (·.speaksOf d) xs ↔
      code = name ∨ lastWord (·.speaksOf d) xs = !default) := by
  intro code name default
  have hallows : (Suppression.after xs).allows d =
      if default then code && name else code || name := by
    rw [Suppression.allows_eq, Suppression.all_after, Suppression.passes_after,
      Suppression.passes_after]
    change (if (!default) = true then code || name else code && name) = _
    cases default <;> rfl
  refine ⟨hallows, ?_⟩
  have hlast : lastWord (·.speaksOf d) xs = code ∨ lastWord (·.speaksOf d) xs = name :=
    lastWord_speaksOf d xs
  rw [hallows]
  clear hallows
  generalize lastWord (·.speaksOf d) xs = last at hlast ⊢
  clear_value code name default
  -- where the two words differ, the state follows the one that is not the default
  obtain rfl | rfl := hlast
  · cases default <;> cases last <;> cases name <;> decide
  · cases default <;> cases code <;> cases last <;> decide

/-- A diagnostic that is silenced by its code and then let pass by its name stays silent. -/
theorem last_directive_overruled :
    let d := Diagnostic.ofKind .bindingUnknown "view.html" none ["text"]
    let xs : List Ruling := [⟨["KO0016"], false⟩, ⟨["binding-unknown"], true⟩]
    lastWord (·.speaksOf d) xs = true ∧ (Suppression.after xs).allows d = false := by
  decide +kernel

/-! ### Keys that do not count -/

namespace Suppression

/-- The keys that are exceptions from the default. -/
def live (s : Suppression) : NameSet := if s.all then s.enabled else s.disabled

/-- The keys of the set that is not in use. -/
def idle (s : Suppression) : NameSet := if s.all then s.disabled else s.enabled

/-- Two states have the same default and the same exceptions. -/
structure Agree (s s' : Suppression) : Prop where
  all : s.all = s'.all
  live : s.live = s'.live

/-- A directive without keys drops the exceptions; any other one adds or takes away exceptions, as
the default asks for. -/
theorem live_obey (s : Suppression) (x : Ruling) :
    (s.obey x).live = if x.sweeping then .empty
      else if x.enable = s.all then s.live.insertMany x.keys else s.live.eraseMany x.keys := by
  unfold obey enable disable live Ruling.sweeping
  cases x.enable <;> cases x.keys.isEmpty <;> cases s.all <;> simp

/-- Only a directive without keys changes which keys do not count. -/
theorem idle_obey (s : Suppression) (x : Ruling) :
    (s.obey x).idle =
      if x.sweeping then (if x.enable then s.enabled else s.disabled) else s.idle := by
  unfold obey enable disable idle Ruling.sweeping
  cases x.enable <;> cases x.keys.isEmpty <;> cases s.all <;> simp

theorem allows_eq_live (s : Suppression) (d : Diagnostic) :
    s.allows d = (s.all == s.live.toList.any d.matchesKey) := by
  unfold allows live
  cases s.all <;> simp

theorem Agree.allows_eq {s s' : Suppression} (h : s.Agree s') (d : Diagnostic) :
    s.allows d = s'.allows d := by
  rw [allows_eq_live, allows_eq_live, h.all, h.live]

/-- States that agree do so behind a directive. -/
theorem Agree.obey {s s' : Suppression} (h : s.Agree s') (x : Ruling) :
    (s.obey x).Agree (s'.obey x) where
  all := by rw [all_obey, all_obey, h.all]
  live := by rw [live_obey, live_obey, h.all, h.live]

/-- States that agree do so behind any directives. -/
theorem Agree.foldl {s s' : Suppression} (h : s.Agree s') (xs : List Ruling) :
    (xs.foldl Suppression.obey s).Agree (xs.foldl Suppression.obey s') := by
  induction xs generalizing s s' with
  | nil => exact h
  | cons x xs ih => exact ih (h.obey x)

/-- Behind a directive without keys any two states agree. -/
theorem agree_obey_sweeping (s s' : Suppression) {x : Ruling} (hx : x.sweeping = true) :
    (s.obey x).Agree (s'.obey x) where
  all := by rw [all_obey, all_obey, if_pos hx, if_pos hx]
  live := by rw [live_obey, live_obey, if_pos hx, if_pos hx]

/-- The keys that do not count are kept until a directive without keys turns the default round. -/
theorem idle_foldl {s : Suppression} {xs : List Ruling}
    (hxs : ∀ x ∈ xs, x.sweeping = true → x.enable = !s.all) : (xs.foldl obey s).idle = s.idle := by
  induction xs generalizing s with
  | nil => rfl
  | cons x xs ih =>
    have hall : (s.obey x).all = s.all := by
      rw [all_obey]
      split
      · next hx => rw [hxs x List.mem_cons_self hx, Bool.not_not]
      · rfl
    have hidle : (s.obey x).idle = s.idle := by
      rw [idle_obey]
      split
      · next hx =>
        rw [hxs x List.mem_cons_self hx, idle]
        cases s.all <;> rfl
      · rfl
    rw [List.foldl_cons, ih, hidle]
    intro y hy
    rw [hall]
    exact hxs y (List.mem_cons_of_mem _ hy)

end Suppression

open Suppression in
/-- **A directive without keys forgets the past.**  Whatever two states have been before it, behind
the same directive without keys and then any further directives they let the same diagnostics pass.
The keys that have been enabled before everything is enabled, or disabled before everything is
disabled, are still there, as long as no directive without keys says the contrary; they do not
count. -/
theorem keyless_directive_forgets (s s' : Suppression) (enable : Bool) (xs : List Ruling) :
    let t := xs.foldl obey (s.obey ⟨[], enable⟩)
    let t' := xs.foldl obey (s'.obey ⟨[], enable⟩)
    (∀ d, t.allows d = t'.allows d) ∧
    ((∀ x ∈ xs, x.sweeping = true → x.enable = enable) →
      t.idle = if enable then s.enabled else s.disabled) := by
  intro t t'
  refine ⟨((agree_obey_sweeping s s' rfl).foldl xs).allows_eq, fun hxs => ?_⟩
  have hall : (s.obey ⟨[], enable⟩).all = !enable := all_obey s _
  rw [idle_foldl (by rwa [hall, Bool.not_not]), idle_obey]
  rfl

open Suppression in
/-- A key that has been disabled before everything is stays in the state, which is then another one
than without it, but lets the same diagnostics pass. -/
theorem keyless_directive_forgets_staleKey :
    let s := initial.obey ⟨["KO0016"], false⟩
    let xs : List Ruling := [⟨[], false⟩, ⟨["KO0017"], true⟩]
    (xs.foldl obey s).idle.toList = ["KO0016"] ∧ (xs.foldl obey initial).idle.toList = [] ∧
      ∀ d, (xs.foldl obey s).allows d = (xs.foldl obey initial).allows d := by
  intro s xs
  obtain ⟨hallows, hidle⟩ := keyless_directive_forgets s initial false [⟨["KO0017"], true⟩]
  refine ⟨?_, by decide +kernel, hallows⟩
  rw [show (xs.foldl obey s).idle = _ from hidle (by decide)]
  decide +kernel

end ViewLint
