/-!
# Ordered sets of names

A finite set of names, kept as the strictly increasing list of its members.  Two sets
with the same members are therefore equal, and listing a set gives its members in
code-point order.

## Main definitions

* `NameSet` — the sets, with `insert`, `erase`, `ofList` and membership.

## Main results

* `NameSet.mem_insert`, `NameSet.mem_erase`, `NameSet.mem_insertMany`,
  `NameSet.mem_eraseMany` — the members after each operation.
-/

namespace ViewLint

/-- Puts a name into an increasing list of names, unless it is there. -/
def insertName (n : String) : List String → List String
  | [] => [n]
  | m :: ms =>
    if n = m then m :: ms
    else if n < m then n :: m :: ms
    else m :: insertName n ms

theorem mem_insertName {n m : String} {ms : List String} :
    m ∈ insertName n ms ↔ m = n ∨ m ∈ ms := by
  induction ms with
  | nil => simp [insertName]
  | cons k ks ih =>
    rw [insertName]
    split
    · simp_all
    · split
      · simp
      · simp only [List.mem_cons, ih]
        grind

theorem pairwise_insertName {n : String} {ms : List String} (h : ms.Pairwise (· < ·)) :
    (insertName n ms).Pairwise (· < ·) := by
  induction ms with
  | nil => simp [insertName]
  | cons k ks ih =>
    rw [List.pairwise_cons] at h
    rw [insertName]
    split
    · exact List.pairwise_cons.mpr h
    · rename_i hne
      split
      · rename_i hlt
        refine List.pairwise_cons.mpr ⟨fun a ha => ?_, List.pairwise_cons.mpr h⟩
        rcases List.mem_cons.mp ha with rfl | ha
        · exact hlt
        · exact String.lt_trans hlt (h.1 a ha)
      · rename_i hnlt
        refine List.pairwise_cons.mpr ⟨fun a ha => ?_, ih h.2⟩
        rcases mem_insertName.mp ha with rfl | ha
        · exact Std.lt_of_le_of_ne (String.not_lt.mp hnlt) (Ne.symm hne)
        · exact h.1 a ha

/-- A finite set of names, as the increasing list of its members. -/
structure NameSet where
  /-- The members in increasing order. -/
  toList : List String
  /-- The members increase, so no name occurs twice. -/
  increasing : toList.Pairwise (· < ·)
  deriving DecidableEq

namespace NameSet

instance : Membership String NameSet := ⟨fun s n => n ∈ s.toList⟩

instance (n : String) (s : NameSet) : Decidable (n ∈ s) :=
  inferInstanceAs (Decidable (n ∈ s.toList))

/-- The set without members. -/
def empty : NameSet := ⟨[], List.Pairwise.nil⟩

instance : Inhabited NameSet := ⟨empty⟩

/-- The set with one more member. -/
def insert (s : NameSet) (n : String) : NameSet :=
  ⟨insertName n s.toList, pairwise_insertName s.increasing⟩

/-- The set without a name. -/
def erase (s : NameSet) (n : String) : NameSet :=
  ⟨s.toList.filter (· != n), s.increasing.filter _⟩

/-- The set with all the given names added. -/
def insertMany (s : NameSet) (ns : List String) : NameSet := ns.foldl insert s

/-- The set with all the given names taken away. -/
def eraseMany (s : NameSet) (ns : List String) : NameSet := ns.foldl erase s

/-- The set of the names of a list. -/
def ofList (ns : List String) : NameSet := empty.insertMany ns

@[simp] theorem not_mem_empty (n : String) : n ∉ empty := List.not_mem_nil

@[simp] theorem mem_insert {s : NameSet} {n m : String} : m ∈ s.insert n ↔ m = n ∨ m ∈ s :=
  mem_insertName

@[simp] theorem mem_erase {s : NameSet} {n m : String} : m ∈ s.erase n ↔ m ∈ s ∧ m ≠ n := by
  show m ∈ s.toList.filter (· != n) ↔ m ∈ s.toList ∧ m ≠ n
  simp

@[simp] theorem mem_insertMany {s : NameSet} {ns : List String} {m : String} :
    m ∈ s.insertMany ns ↔ m ∈ ns ∨ m ∈ s := by
  induction ns generalizing s with
  | nil => simp [insertMany]
  | cons n ns ih =>
    have := ih (s := s.insert n)
    simp only [insertMany, List.foldl_cons, List.mem_cons] at this ⊢
    rw [this, mem_insert]
    grind

@[simp] theorem mem_eraseMany {s : NameSet} {ns : List String} {m : String} :
    m ∈ s.eraseMany ns ↔ m ∈ s ∧ m ∉ ns := by
  induction ns generalizing s with
  | nil => simp [eraseMany]
  | cons n ns ih =>
    have := ih (s := s.erase n)
    simp only [eraseMany, List.foldl_cons, List.mem_cons] at this ⊢
    rw [this, mem_erase]
    grind

end NameSet

end ViewLint
