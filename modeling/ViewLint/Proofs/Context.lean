import Mathlib.Tactic.Common
import ViewLint.Context

/-!
# Growing forests

A forest grows by one context at a time.  A new context changes the list of children of the
context around it, and nothing else about the contexts that are there.

## Main definitions

* `Forest.origin?` — what has made a context.

## Main results

* `Forest.origin?_addRoot`, `Forest.origin?_addChild`, `Forest.parent?_addRoot`,
  `Forest.parent?_addChild` — the origins and parents after one more context.
-/

namespace ViewLint.Forest

/-- What has made a context. -/
def origin? (f : Forest) (id : ContextId) : Option Origin := (f.get? id).map (·.origin)

@[simp] theorem size_addRoot (f : Forest) (node : NodeId) (type : Option String) :
    (f.addRoot node type).size = f.size + 1 := by
  simp [addRoot, size]

@[simp] theorem size_addChild (f : Forest) (parent : ContextId) (origin : Origin)
    (type : Option String) : (f.addChild parent origin type).size = f.size + 1 := by
  simp [addChild, size]

theorem get?_addRoot (f : Forest) (node : NodeId) (type : Option String) (id : Nat) :
    (f.addRoot node type).get? id =
      if id = f.size then some ⟨f.size, type, none, [], .root node⟩ else f.get? id := by
  unfold get? addRoot size
  exact Array.getElem?_push

theorem get?_addChild (f : Forest) (parent : Nat) (origin : Origin) (type : Option String)
    (id : Nat) :
    (f.addChild parent origin type).get? id =
      (if id = f.size then some ⟨f.size, type, some parent, [], origin⟩ else f.get? id).map
        fun c => if parent = id then { c with children := c.children ++ [f.size] } else c := by
  unfold get? addChild size
  simp only [Array.getElem?_modify, Array.getElem?_push]
  by_cases hp : parent = id <;> simp [hp]

/-! ### Origins and parents -/

theorem origin?_addRoot (f : Forest) (node : NodeId) (type : Option String) (id : Nat) :
    (f.addRoot node type).origin? id =
      if id = f.size then some (.root node) else f.origin? id := by
  rw [origin?, get?_addRoot]
  split <;> rfl

theorem parent?_addRoot (f : Forest) (node : NodeId) (type : Option String) (id : Nat) :
    (f.addRoot node type).parent? id = if id = f.size then none else f.parent? id := by
  rw [parent?, get?_addRoot]
  split <;> rfl

theorem origin?_addChild (f : Forest) (parent : Nat) (origin : Origin) (type : Option String)
    (id : Nat) :
    (f.addChild parent origin type).origin? id =
      if id = f.size then some origin else f.origin? id := by
  rw [origin?, get?_addChild, origin?]
  by_cases hid : id = f.size
  · by_cases hp : parent = f.size <;> simp [hid, hp]
  · simp only [if_neg hid]
    cases f.get? id with
    | none => rfl
    | some c => by_cases hp : parent = id <;> simp [hp]

theorem parent?_addChild (f : Forest) (parent : Nat) (origin : Origin) (type : Option String)
    (id : Nat) :
    (f.addChild parent origin type).parent? id =
      if id = f.size then some parent else f.parent? id := by
  rw [parent?, get?_addChild, parent?]
  by_cases hid : id = f.size
  · by_cases hp : parent = f.size <;> simp [hid, hp]
  · simp only [if_neg hid]
    cases f.get? id with
    | none => rfl
    | some c => by_cases hp : parent = id <;> simp [hp]

/-- A context with an origin is the new one, or one that was there before. -/
theorem of_origin?_addRoot {f : Forest} {node : NodeId} {type : Option String} {id : Nat}
    {origin : Origin} (h : (f.addRoot node type).origin? id = some origin) :
    (id = f.size ∧ origin = .root node) ∨ f.origin? id = some origin := by
  rw [origin?_addRoot] at h
  split at h
  · next hid => exact .inl ⟨hid, (Option.some.inj h).symm⟩
  · exact .inr h

theorem of_origin?_addChild {f : Forest} {parent : Nat} {origin : Origin} {type : Option String}
    {id : Nat} {origin' : Origin} (h : (f.addChild parent origin type).origin? id = some origin') :
    (id = f.size ∧ origin' = origin) ∨ f.origin? id = some origin' := by
  rw [origin?_addChild] at h
  split at h
  · next hid => exact .inl ⟨hid, (Option.some.inj h).symm⟩
  · exact .inr h

theorem origin?_isSome_iff {f : Forest} {id : Nat} : (f.origin? id).isSome ↔ id < f.size := by
  simp [origin?, get?, size]

theorem lt_size_of_origin? {f : Forest} {id : Nat} {origin : Origin}
    (h : f.origin? id = some origin) : id < f.size := by
  rw [← origin?_isSome_iff, h]
  rfl

end ViewLint.Forest
