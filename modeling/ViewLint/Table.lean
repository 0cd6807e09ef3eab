/-!
# Tables by number

A finite map from numbers, listed by increasing key.

## Main definitions

* `Table` — the maps, with `get?` and `insert`.

## Main results

* `Table.get?_insert` — the value of every key after an insertion.
-/

namespace ViewLint

/-- A finite map from numbers. -/
structure Table (α : Type) where
  /-- The keys with their values, by increasing key. -/
  entries : List (Nat × α)
  deriving DecidableEq, Repr

namespace Table

variable {α : Type}

/-- No keys. -/
def empty : Table α := ⟨[]⟩

instance : Inhabited (Table α) := ⟨empty⟩

/-- The value of a key. -/
def get? (t : Table α) (k : Nat) : Option α := t.entries.lookup k

/-- Puts a key with its value in its place, over the value it may have. -/
def insertEntry (k : Nat) (v : α) : List (Nat × α) → List (Nat × α)
  | [] => [(k, v)]
  | (j, w) :: rest =>
    if k < j then (k, v) :: (j, w) :: rest
    else if k = j then (k, v) :: rest
    else (j, w) :: insertEntry k v rest

/-- The table in which a key has a given value. -/
def insert (t : Table α) (k : Nat) (v : α) : Table α := ⟨insertEntry k v t.entries⟩

@[simp] theorem get?_empty (k : Nat) : (empty : Table α).get? k = none := rfl

theorem lookup_insertEntry (k : Nat) (v : α) (j : Nat) (es : List (Nat × α)) :
    (insertEntry k v es).lookup j = if j = k then some v else es.lookup j := by
  have hjk : (j == k) = decide (j = k) := rfl
  induction es with
  | nil =>
    rw [insertEntry, List.lookup_cons, hjk]
    by_cases h : j = k <;> simp [h]
  | cons e es ih =>
    obtain ⟨i, w⟩ := e
    rw [insertEntry]
    split
    · -- the key comes before all others
      rw [List.lookup_cons, hjk]
      by_cases h : j = k <;> simp [h]
    · split
      · -- the key is there and gets the new value
        rename_i hki
        subst hki
        rw [List.lookup_cons, List.lookup_cons, hjk]
        by_cases h : j = k <;> simp [h]
      · -- the key comes behind the first one
        rename_i hki
        rw [List.lookup_cons, List.lookup_cons, ih]
        by_cases h : j = i
        · subst h
          simp [Ne.symm hki]
        · simp [beq_false_of_ne h]

theorem get?_insert (t : Table α) (k : Nat) (v : α) (j : Nat) :
    (t.insert k v).get? j = if j = k then some v else t.get? j :=
  lookup_insertEntry k v j t.entries

end Table

end ViewLint
