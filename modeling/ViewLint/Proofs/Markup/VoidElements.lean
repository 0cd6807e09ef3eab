import Mathlib.Data.List.Basic
import Mathlib.Data.List.Induction
import Mathlib.Tactic.Common
import ViewLint.Markup.Directive
import ViewLint.Markup.Tokenize

/-!
# Void elements

An element of HTML that has no content needs no end tag.  In the tokens of a view its start tag
becomes an empty tag, and the end tag that it may have all the same is left out.  Nothing else
changes, neither the other tokens nor their order, so that void elements can be made empty in place,
from the last token to the first.  The tags that are left are balanced if all tags were: what is
taken out of the stack of open elements are the void ones, wherever they stand in it.

## Main definitions

* `Element.isVoid`, `Token.endsVoid`, `Token.emptied` — the tokens that are left out or changed.
* `Markup.normalizeAt`, `Markup.normalizeInPlace` — one token after the other, in place.
* `OpenTags`, `replayTags` — the names of the open elements, and how many have been open at once.
* `OpenTags.Thinned` — the same without the void elements.

## Main results

* `Markup.normalizeVoid_eq_map_filter` — a filter, and a change of single tokens.
* `Markup.normalizeInPlace_eq` — the same in place.
* `OpenTags.Thinned.step`, `OpenTags.Thinned.run` — the stack without the void elements.
* `void_elements_leave_balance` — making void elements empty keeps tags balanced.
-/

namespace ViewLint

open Markup

/-! ### Which tokens change -/

/-- An element in tags whose name is that of a void one. -/
def Element.isVoid (e : Element) : Bool := !e.isVirtual && voidTags.contains e.tag

/-- The end tag of a void element. -/
def Token.endsVoid : Token → Bool
  | .element e => e.isVoid && e.type == .stop
  | .directive _ => false

/-- A token, or the empty tag in place of the start tag of a void element. -/
def Token.emptied : Token → Token
  | .element e =>
    .element (if e.isVoid && e.type == .start then { e with type := .empty } else e)
  | .directive d => .directive d

namespace Markup

theorem normalizeToken_element (e : Element) :
    normalizeToken (.element e) =
      if e.isVoid then
        match e.type with
        | .start => some (.element { e with type := .empty })
        | .stop => none
        | .empty => some (.element e)
      else some (.element e) := by
  have hvoid : (e.isVirtual || !voidTags.contains e.tag) = !e.isVoid := by simp [Element.isVoid]
  rw [normalizeToken, hvoid]
  by_cases h : e.isVoid = true <;> cases htype : e.type <;> simp [h]

theorem normalizeToken_eq (t : Token) :
    normalizeToken t = if t.endsVoid then none else some t.emptied := by
  cases t with
  | directive d => rfl
  | element e =>
    rw [normalizeToken_element]
    by_cases h : e.isVoid = true <;> cases htype : e.type <;>
      simp [Token.endsVoid, Token.emptied, h, htype]

/-- End tags of void elements are left out, and all other tokens change on their own. -/
theorem normalizeVoid_eq_map_filter (ts : List Token) :
    normalizeVoid ts = (ts.filter (!·.endsVoid)).map Token.emptied := by
  induction ts with
  | nil => rfl
  | cons t ts ih =>
    have ht := normalizeToken_eq t
    unfold normalizeVoid at ih ⊢
    by_cases hend : t.endsVoid = true <;> simp [ht, hend, ih]

/-- What has been changed is neither left out nor changed again. -/
theorem normalizeToken_emptied {t : Token} (h : t.endsVoid = false) :
    normalizeToken t.emptied = some t.emptied := by
  cases t with
  | directive d => rfl
  | element e =>
    by_cases hvoid : e.isVoid = true <;> cases htype : e.type <;>
      simp_all [Token.endsVoid, Token.emptied, normalizeToken_element]

theorem normalizeVoid_normalizeVoid (ts : List Token) :
    normalizeVoid (normalizeVoid ts) = normalizeVoid ts := by
  have hkeep : ∀ t ∈ normalizeVoid ts, normalizeToken t = some t := by
    intro t ht
    rw [normalizeVoid_eq_map_filter] at ht
    obtain ⟨t', ht', rfl⟩ := List.mem_map.mp ht
    exact normalizeToken_emptied (by simpa using (List.mem_filter.mp ht').2)
  generalize normalizeVoid ts = us at hkeep ⊢
  rw [normalizeVoid, List.filterMap_congr hkeep, List.filterMap_some]

/-! ### In place -/

/-- The list whose token of some number has been made empty, if it is the start tag of a void
element, or taken out, if it is the end tag of one. -/
def normalizeAt (ts : List Token) (i : Nat) : List Token :=
  match ts[i]? with
  | some (.element e) =>
    if e.isVoid then
      match e.type with
      | .start => ts.set i (.element { e with type := .empty })
      | .stop => ts.eraseIdx i
      | .empty => ts
    else ts
  | _ => ts

/-- Void elements made empty one after the other, from the last token to the first. -/
def normalizeInPlace (ts : List Token) : List Token :=
  (List.range ts.length).reverse.foldl normalizeAt ts

/-- The token between two stretches of a list, on its own. -/
theorem normalizeAt_append_cons (before : List Token) (t : Token) (behind : List Token) :
    normalizeAt (before ++ t :: behind) before.length =
      before ++ (normalizeToken t).toList ++ behind := by
  have hget : (before ++ t :: behind)[before.length]? = some t := by simp
  unfold normalizeAt
  rw [hget]
  cases t with
  | directive d => simp [normalizeToken]
  | element e =>
    by_cases hvoid : e.isVoid = true <;> cases htype : e.type <;>
      simp [normalizeToken_element, hvoid, htype, List.eraseIdx_append_of_length_le]

/-- All that stands behind a token has been settled before its turn comes, and does not change. -/
theorem foldl_normalizeAt (ts behind : List Token) :
    (List.range ts.length).reverse.foldl normalizeAt (ts ++ behind) =
      normalizeVoid ts ++ behind := by
  induction ts using List.reverseRecOn generalizing behind with
  | nil => rfl
  | append_singleton ts t ih =>
    rw [List.length_append, List.length_singleton, List.range_succ, List.reverse_append,
      List.reverse_singleton, List.singleton_append, List.foldl_cons, List.append_assoc,
      List.singleton_append, normalizeAt_append_cons, List.append_assoc, ih]
    cases hnormal : normalizeToken t <;> simp [normalizeVoid, hnormal]

theorem normalizeInPlace_eq (ts : List Token) : normalizeInPlace ts = normalizeVoid ts := by
  have hfold := foldl_normalizeAt ts []
  rwa [List.append_nil, List.append_nil] at hfold

end Markup

/-! ### The stack of open elements -/

/-- The names of the open elements, the innermost first, and the greatest number of elements that
have been open at once. -/
structure OpenTags where
  names : List String
  peak : Nat
  deriving DecidableEq, Repr

/-- A tag opens an element, closes the innermost one, which must have its name, or does neither. -/
def OpenTags.step (o : OpenTags) : Token → Option OpenTags
  | .directive _ => some o
  | .element e =>
    match e.type, o.names with
    | .start, names => some ⟨e.tag :: names, max o.peak (names.length + 1)⟩
    | .stop, name :: names => if name = e.tag then some ⟨names, o.peak⟩ else none
    | .stop, [] => none
    | .empty, _ => some o

/-- The open elements after some tags, unless an end tag does not fit. -/
def replayTags (ts : List Token) : Option OpenTags := ts.foldlM OpenTags.step ⟨[], 0⟩

namespace OpenTags

/-- The open elements without the void ones, of which not more have been open at once. -/
structure Thinned (o o' : OpenTags) : Prop where
  names : o'.names = o.names.filter (· ∉ voidTags)
  peak : o'.peak ≤ o.peak

variable {o o' o₁ : OpenTags}

theorem Thinned.length_le (h : Thinned o o') : o'.names.length ≤ o.names.length := by
  rw [h.names]
  exact List.length_filter_le _ _

/-- A tag of an element that is not void does the same to both stacks. -/
theorem Thinned.step_of_not_void (h : Thinned o o') {e : Element} (hvoid : e.tag ∉ voidTags)
    (hstep : o.step (.element e) = some o₁) :
    ∃ o₁', o'.step (.element e) = some o₁' ∧ Thinned o₁ o₁' := by
  have hlength := h.length_le
  obtain ⟨names, peak⟩ := o
  obtain ⟨names', peak'⟩ := o'
  obtain ⟨hnames, hpeak⟩ := h
  dsimp only at hnames hpeak hlength
  subst hnames
  cases htype : e.type with
  | empty =>
    simp only [step, htype, Option.some_inj] at hstep ⊢
    exact ⟨_, rfl, hstep ▸ ⟨rfl, hpeak⟩⟩
  | start =>
    simp only [step, htype, Option.some_inj] at hstep ⊢
    refine ⟨_, rfl, hstep ▸ ⟨?_, ?_⟩⟩
    · rw [List.filter_cons_of_pos (by simp [hvoid])]
    · show max _ _ ≤ max _ _
      omega
  | stop =>
    cases names with
    | nil => simp [step, htype] at hstep
    | cons name names =>
      simp only [step, htype, Option.ite_none_right_eq_some, Option.some_inj] at hstep
      obtain ⟨rfl, rfl⟩ := hstep
      refine ⟨⟨_, peak'⟩, ?_, ⟨rfl, hpeak⟩⟩
      rw [List.filter_cons_of_pos (by simp [hvoid])]
      simp [step, htype]

/-- A tag of a void element leaves the stack without such elements as it is. -/
theorem Thinned.step_of_void (h : Thinned o o') {e : Element} (hvoid : e.tag ∈ voidTags)
    (hstep : o.step (.element e) = some o₁) : Thinned o₁ o' := by
  obtain ⟨names, peak⟩ := o
  obtain ⟨hnames, hpeak⟩ := h
  dsimp only at hnames hpeak
  cases htype : e.type with
  | empty =>
    simp only [step, htype, Option.some_inj] at hstep
    exact hstep ▸ ⟨hnames, hpeak⟩
  | start =>
    simp only [step, htype, Option.some_inj] at hstep
    refine hstep ▸ ⟨?_, Nat.le_trans hpeak (Nat.le_max_left _ _)⟩
    rw [List.filter_cons_of_neg (by simp [hvoid])]
    exact hnames
  | stop =>
    cases names with
    | nil => simp [step, htype] at hstep
    | cons name names =>
      simp only [step, htype, Option.ite_none_right_eq_some, Option.some_inj] at hstep
      obtain ⟨rfl, rfl⟩ := hstep
      refine ⟨?_, hpeak⟩
      rw [List.filter_cons_of_neg (by simp [hvoid])] at hnames
      exact hnames

/-- A token does to the stack what it does to the one without the void elements once it has been
made empty.  No virtual element has the name of a void one. -/
theorem Thinned.step (h : Thinned o o') {t : Token}
    (hvirtual : ∀ e, t = .element e → e.isVirtual = true → e.tag = virtualTag)
    (hstep : o.step t = some o₁) :
    ∃ o₁', (normalizeToken t).toList.foldlM OpenTags.step o' = some o₁' ∧ Thinned o₁ o₁' := by
  cases t with
  | directive d =>
    obtain rfl : o = o₁ := Option.some.inj hstep
    exact ⟨o', rfl, h⟩
  | element e =>
    by_cases hvoid : e.tag ∈ voidTags
    · have hreal : e.isVirtual = false := by
        by_contra hkind
        rw [hvirtual e rfl (by simpa using hkind)] at hvoid
        exact absurd hvoid (by decide)
      refine ⟨o', ?_, h.step_of_void hvoid hstep⟩
      cases htype : e.type <;>
        simp [normalizeToken_element, Element.isVoid, hvoid, hreal, htype, OpenTags.step]
    · obtain ⟨o₁', hstep', h'⟩ := h.step_of_not_void hvoid hstep
      have hsame : normalizeToken (.element e) = some (.element e) := by
        simp [normalizeToken_element, Element.isVoid, hvoid]
      exact ⟨o₁', by simpa [hsame] using hstep', h'⟩

/-- All tokens do the same to both stacks. -/
theorem Thinned.run (h : Thinned o o') {ts : List Token}
    (hvirtual : ∀ e, .element e ∈ ts → e.isVirtual = true → e.tag = virtualTag)
    (hrun : ts.foldlM OpenTags.step o = some o₁) :
    ∃ o₁', (normalizeVoid ts).foldlM OpenTags.step o' = some o₁' ∧ Thinned o₁ o₁' := by
  induction ts generalizing o o' with
  | nil =>
    obtain rfl : o = o₁ := Option.some.inj hrun
    exact ⟨o', rfl, h⟩
  | cons t ts ih =>
    rw [List.foldlM_cons] at hrun
    obtain ⟨o₂, hstep, hrun⟩ := Option.bind_eq_some_iff.mp hrun
    obtain ⟨o₂', hstep', h₂⟩ :=
      h.step (fun e he => hvirtual e (he ▸ List.mem_cons_self)) hstep
    obtain ⟨o₁', hrun', h₁⟩ :=
      ih h₂ (fun e he => hvirtual e (List.mem_cons_of_mem t he)) hrun
    refine ⟨o₁', ?_, h₁⟩
    have hcons : normalizeVoid (t :: ts) = (normalizeToken t).toList ++ normalizeVoid ts := by
      cases hnormal : normalizeToken t <;> simp [normalizeVoid, hnormal]
    rw [hcons, List.foldlM_append, hstep']
    exact hrun'

end OpenTags

/-- **Making void elements empty is a filter that keeps tags balanced.**  In place or not, end tags
of void elements are left out, start tags of void elements become empty tags and keep all else, and
the other tokens stay, all in their order; doing it again changes nothing.  If every virtual element
has the name of virtual elements, and the tags close all elements that they open, then so do the
tags that are left, with not more elements open at once. -/
theorem void_elements_leave_balance (ts : List Token) :
    normalizeInPlace ts = normalizeVoid ts ∧
    normalizeVoid ts = (ts.filter (!·.endsVoid)).map Token.emptied ∧
    normalizeVoid (normalizeVoid ts) = normalizeVoid ts ∧
    ((∀ e, .element e ∈ ts → e.isVirtual = true → e.tag = virtualTag) →
      ∀ depth, replayTags ts = some ⟨[], depth⟩ →
        ∃ depth' ≤ depth, replayTags (normalizeVoid ts) = some ⟨[], depth'⟩) := by
  refine ⟨normalizeInPlace_eq ts, normalizeVoid_eq_map_filter ts,
    normalizeVoid_normalizeVoid ts, ?_⟩
  intro hvirtual depth hbalanced
  have hstart : OpenTags.Thinned ⟨[], 0⟩ ⟨[], 0⟩ := ⟨rfl, Nat.le_refl 0⟩
  obtain ⟨⟨names, depth'⟩, hrun, hnames, hpeak⟩ := hstart.run hvirtual hbalanced
  obtain rfl : names = [] := hnames
  exact ⟨depth', hpeak, hrun⟩

/-- Void elements around, beside and inside other elements, one of them virtual. -/
def nestedVoids : List Token :=
  let tag (name : String) (type : TagType) (isVirtual : Bool) : Token :=
    .element ⟨name, type, default, [], isVirtual⟩
  [tag "br" .start false, tag "ko" .start true, .directive (.lint default [] true),
    tag "hr" .start false, tag "p" .start false, tag "img" .empty false, tag "p" .stop false,
    tag "hr" .stop false, tag "ko" .stop true, tag "br" .stop false]

theorem void_elements_leave_balance_nestedVoids :
    replayTags nestedVoids = some ⟨[], 4⟩ ∧ replayTags (normalizeVoid nestedVoids) = some ⟨[], 2⟩ ∧
    (normalizeInPlace nestedVoids).length = 8 ∧
    ∃ depth' ≤ 4, replayTags (normalizeVoid nestedVoids) = some ⟨[], depth'⟩ := by
  have hvirtual : ∀ e, .element e ∈ nestedVoids → e.isVirtual = true → e.tag = virtualTag := by
    intro e he
    simp only [nestedVoids, List.mem_cons, Token.element.injEq, reduceCtorEq, List.not_mem_nil,
      or_false, false_or] at he
    rcases he with rfl | rfl | rfl | rfl | rfl | rfl | rfl | rfl | rfl <;> decide
  obtain ⟨-, -, -, hbalance⟩ := void_elements_leave_balance nestedVoids
  exact ⟨by decide, by decide, by decide, hbalance hvirtual 4 (by decide)⟩

end ViewLint
