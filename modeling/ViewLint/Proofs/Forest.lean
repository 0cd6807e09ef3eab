import Mathlib.Data.List.Nodup
import Mathlib.Data.List.Perm.Subperm
import Mathlib.Data.List.Range
import ViewLint.Proofs.Context

/-!
# Forests are forests

A new context is given the next number, below a context that is there already.  So the number of a
context is larger than that of the context around it, and the list of children of a context is
always that of the contexts that name it as their parent.  A walk from the roots keeps to this: the
contexts on its stack are those below a context that it has met, and the roots, less what it has met
itself.

## Main definitions

* `Forest.Made` — forests that are made one context after the other.
* `Forest.Linked` — children and roots are those that the parents give.
* `Forest.Walks` — a walk that ends, and what it has met then.
* `Forest.Midway` — the stack of a walk, and what has been met.
* `Forest.Proper` — numbers, parents, walks and ancestors agree.

## Main results

* `Forest.Linked.addRoot`, `Forest.Linked.addChild` — one more context.
* `Forest.Midway.step`, `Forest.Midway.exists_walks` — one step of a walk, and all steps.
* `Forest.Linked.ancestors_eq` — the ancestors of a context are found in full.
* `made_forest_is_proper` — however contexts are made, they are a forest.
-/

namespace ViewLint

namespace Forest

/-- The forests that are made one context after the other, each a root or a child of a context that
is there already. -/
inductive Made : Forest → Prop where
  | empty : Made .empty
  | addRoot {f : Forest} (h : Made f) (node : NodeId) (type : Option String) :
    Made (f.addRoot node type)
  | addChild {f : Forest} (h : Made f) {parent : Nat} (hp : parent < f.size) (origin : Origin)
    (type : Option String) : Made (f.addChild parent origin type)

/-- The children of a context, as far as it is there. -/
def childrenOf (f : Forest) (id : ContextId) : List ContextId :=
  ((f.get? id).map (·.children)).getD []

/-- The contexts that have a given parent, or none. -/
def below (f : Forest) (parent : Option ContextId) : List ContextId :=
  (List.range f.size).filter fun i => f.parent? i = parent

/-- Every context stands at its number, below a smaller one if it is no root; the roots and the
children of a context are those that say so. -/
structure Linked (f : Forest) : Prop where
  id_eq : ∀ i c, f.get? i = some c → c.id = i
  parent_lt : ∀ i p, f.parent? i = some p → p < i
  roots_eq : f.roots = f.below none
  children_eq : ∀ i, f.childrenOf i = f.below (some i)

variable {f : Forest}

theorem get?_isSome_iff {i : Nat} : (f.get? i).isSome ↔ i < f.size := by
  simp [get?, size]

theorem lt_size_of_parent? {i p : Nat} (h : f.parent? i = some p) : i < f.size := by
  obtain ⟨c, hc, -⟩ := Option.bind_eq_some_iff.mp h
  exact get?_isSome_iff.mp (by simp [hc])

theorem mem_below {i : Nat} {parent : Option ContextId} :
    i ∈ f.below parent ↔ i < f.size ∧ f.parent? i = parent := by
  simp [below]

theorem nodup_below (parent : Option ContextId) : (f.below parent).Nodup :=
  List.nodup_range.filter _

/-! ### One more context -/

/-- The contexts with a given parent after one more context. -/
theorem below_of_size_succ {g : Forest} {new parent : Option ContextId}
    (hsize : g.size = f.size + 1)
    (hparent : ∀ i, g.parent? i = if i = f.size then new else f.parent? i) :
    g.below parent = f.below parent ++ if new = parent then [f.size] else [] := by
  have hold : (List.range f.size).filter (fun i => g.parent? i = parent) = f.below parent := by
    refine List.filter_congr fun i hi => ?_
    rw [hparent, if_neg (Nat.ne_of_lt (List.mem_range.mp hi))]
  rw [below, hsize, List.range_succ, List.filter_append, hold, List.filter_singleton, hparent,
    if_pos rfl]
  by_cases hnew : new = parent <;> simp [hnew]

theorem childrenOf_addRoot (node : NodeId) (type : Option String) (i : Nat) :
    (f.addRoot node type).childrenOf i = f.childrenOf i := by
  rw [childrenOf, get?_addRoot, childrenOf]
  split
  · next h =>
    have hnone : f.get? i = none := by simp [h, get?, size]
    rw [hnone]
    rfl
  · rfl

theorem childrenOf_addChild {parent : Nat} (hp : parent < f.size) (origin : Origin)
    (type : Option String) (i : Nat) :
    (f.addChild parent origin type).childrenOf i =
      f.childrenOf i ++ if some parent = some i then [f.size] else [] := by
  rw [childrenOf, get?_addChild, childrenOf]
  by_cases hi : i = f.size
  · have hnone : f.get? i = none := by simp [hi, get?, size]
    have hne : parent ≠ i := by omega
    simp [if_pos hi, hnone, hne]
  · rw [if_neg hi]
    cases hc : f.get? i with
    | none =>
      have hne : parent ≠ i := by
        rintro rfl
        simp [← get?_isSome_iff, hc] at hp
      simp [hne]
    | some c => by_cases hpi : parent = i <;> simp [hpi]

theorem linked_empty : empty.Linked := by
  refine ⟨?_, ?_, rfl, ?_⟩
  · intro i c h
    simp [get?, empty] at h
  · intro i p h
    simp [parent?, get?, empty] at h
  · intro i
    simp [childrenOf, below, get?, empty, size]

theorem Linked.addRoot (h : f.Linked) (node : NodeId) (type : Option String) :
    (f.addRoot node type).Linked := by
  have hbelow : ∀ parent, (f.addRoot node type).below parent = _ := fun parent =>
    below_of_size_succ (size_addRoot f node type) (parent?_addRoot f node type)
  refine ⟨?_, ?_, ?_, ?_⟩
  · intro i c hc
    rw [get?_addRoot] at hc
    split at hc
    · next hi =>
      cases hc
      exact hi.symm
    · exact h.id_eq i c hc
  · intro i p hp
    rw [parent?_addRoot] at hp
    split at hp
    · cases hp
    · exact h.parent_lt i p hp
  · rw [hbelow none, if_pos rfl, ← h.roots_eq]
    rfl
  · intro i
    rw [childrenOf_addRoot, h.children_eq, hbelow, if_neg (by simp), List.append_nil]

theorem Linked.addChild (h : f.Linked) {parent : Nat} (hp : parent < f.size) (origin : Origin)
    (type : Option String) : (f.addChild parent origin type).Linked := by
  have hbelow : ∀ p, (f.addChild parent origin type).below p = _ := fun p =>
    below_of_size_succ (size_addChild f parent origin type) (parent?_addChild f parent origin type)
  refine ⟨?_, ?_, ?_, ?_⟩
  · intro i c hc
    rw [get?_addChild] at hc
    obtain ⟨c', hc', rfl⟩ := Option.map_eq_some_iff.mp hc
    have hid : c'.id = i := by
      split at hc'
      · next hi =>
        cases hc'
        exact hi.symm
      · exact h.id_eq i c' hc'
    split
    · exact hid
    · exact hid
  · intro i p hip
    rw [parent?_addChild] at hip
    split at hip
    · next hi =>
      cases hip
      rw [hi]
      exact hp
    · exact h.parent_lt i p hip
  · rw [hbelow none, if_neg (by simp), List.append_nil, ← h.roots_eq]
    rfl
  · intro i
    rw [childrenOf_addChild hp, h.children_eq, hbelow]

theorem Made.linked (h : f.Made) : f.Linked := by
  induction h with
  | empty => exact linked_empty
  | addRoot _ node type ih => exact ih.addRoot node type
  | addChild _ hp origin type ih => exact ih.addChild hp origin type

/-! ### Walks -/

/-- A walk from the contexts of a stack that has met some contexts, and in the end all of `met`.  No
context is met twice, and its children name it as their parent. -/
inductive Walks (f : Forest) : List ContextId → List ContextId → List ContextId → Prop where
  | done (met : List ContextId) : Walks f [] met met
  | step {id : ContextId} {stack seen met : List ContextId} (hid : id < f.size) (hseen : id ∉ seen)
    (hchildren : ∀ k ∈ f.childrenOf id, f.parent? k = some id)
    (hrest : Walks f ((f.childrenOf id).reverse ++ stack) (id :: seen) met) :
    Walks f (id :: stack) seen met

/-- What a walk has met stays met. -/
theorem Walks.length_le {stack seen met : List ContextId} (h : f.Walks stack seen met) :
    seen.length ≤ met.length := by
  induction h with
  | done met => exact Nat.le_refl _
  | step _ _ _ _ ih => exact Nat.le_of_succ_le ih

/-- The check accepts a walk that meets as many contexts as there are. -/
theorem Walks.walk_eq_true {stack seen met : List ContextId} (h : f.Walks stack seen met)
    (hmet : met.length = f.size) (fuel : Nat) (hfuel : f.size ≤ fuel + seen.length) :
    f.walk fuel stack seen = true := by
  induction h generalizing fuel with
  | done met =>
    cases fuel <;> simp [walk, hmet]
  | @step id stack seen met hid hseen hchildren hrest ih =>
    have hlength := hrest.length_le
    obtain ⟨c, hc⟩ := Option.isSome_iff_exists.mp (get?_isSome_iff.mpr hid)
    have hkids : f.childrenOf id = c.children := by simp [childrenOf, hc]
    rw [hkids] at hchildren ih
    rw [List.length_cons] at hlength ih
    cases fuel with
    | zero => omega
    | succ fuel =>
      have hrec := ih hmet fuel (by omega)
      simp only [walk, hc, hrec, Bool.and_true, Bool.and_eq_true, Bool.not_eq_true',
        List.all_eq_true, beq_iff_eq]
      exact ⟨by simpa using hseen, hchildren⟩

/-- In the middle of a walk, the contexts that have been met or wait on the stack are the roots and
all children of contexts that have been met, each once. -/
structure Midway (f : Forest) (stack seen : List ContextId) : Prop where
  nodup : (stack ++ seen).Nodup
  mem_iff : ∀ i, i ∈ stack ++ seen ↔
    i < f.size ∧ ∀ p, f.parent? i = some p → p ∈ seen

theorem Linked.midway_roots (h : f.Linked) : f.Midway f.roots.reverse [] := by
  refine ⟨?_, ?_⟩
  · rw [List.append_nil, List.nodup_reverse, h.roots_eq]
    exact nodup_below none
  · intro i
    rw [List.append_nil, List.mem_reverse, h.roots_eq, mem_below]
    simp [Option.eq_none_iff_forall_ne_some]

/-- A step of a walk moves a context from the stack to those that have been met, and puts its
children on the stack. -/
theorem Midway.step {id : ContextId} {stack seen : List ContextId} (hlinked : f.Linked)
    (h : f.Midway (id :: stack) seen) :
    f.Midway ((f.childrenOf id).reverse ++ stack) (id :: seen) := by
  have hkids : ∀ k, k ∈ f.childrenOf id ↔ f.parent? k = some id := by
    intro k
    rw [hlinked.children_eq, mem_below]
    exact ⟨And.right, fun hk => ⟨lt_size_of_parent? hk, hk⟩⟩
  obtain ⟨hfresh, hnodup⟩ := List.nodup_cons.mp h.nodup
  have hmove : (stack ++ id :: seen).Perm (id :: stack ++ seen) := List.perm_middle
  -- a child was neither met nor waiting, since its parent had not been met
  have hapart : ∀ k ∈ f.childrenOf id, k ∉ id :: stack ++ seen := by
    intro k hk hmem
    have hmet := ((h.mem_iff k).mp hmem).2 id ((hkids k).mp hk)
    exact hfresh (List.mem_append_right _ hmet)
  refine ⟨?_, ?_⟩
  · rw [List.append_assoc]
    refine List.Nodup.append ?_ (hmove.nodup_iff.mpr h.nodup) ?_
    · rw [List.nodup_reverse, hlinked.children_eq]
      exact nodup_below _
    · intro k hk hmem
      exact hapart k (List.mem_reverse.mp hk) (hmove.mem_iff.mp hmem)
  · intro i
    rw [List.append_assoc, List.mem_append, List.mem_reverse, hkids, hmove.mem_iff, h.mem_iff]
    constructor
    · rintro (hi | ⟨hi, hparents⟩)
      · refine ⟨lt_size_of_parent? hi, fun p hp => ?_⟩
        cases hi.symm.trans hp
        exact List.mem_cons_self ..
      · exact ⟨hi, fun p hp => List.mem_cons_of_mem _ (hparents p hp)⟩
    · rintro ⟨hi, hparents⟩
      by_cases hchild : f.parent? i = some id
      · exact .inl hchild
      · refine .inr ⟨hi, fun p hp => ?_⟩
        rcases List.mem_cons.mp (hparents p hp) with rfl | hp
        · exact absurd hp hchild
        · exact hp

/-- When nothing waits any more, all contexts have been met. -/
theorem Midway.perm_range {seen : List ContextId} (hlinked : f.Linked) (h : f.Midway [] seen) :
    seen.Perm (List.range f.size) := by
  have hmem : ∀ i, i < f.size → i ∈ seen := by
    -- the parent of a context has a smaller number
    intro i
    induction i using Nat.strongRecOn with
    | ind i ih =>
      intro hi
      refine (h.mem_iff i).mpr ⟨hi, fun p hp => ?_⟩
      have hlt := hlinked.parent_lt i p hp
      exact ih p hlt (Nat.lt_trans hlt hi)
  refine (List.perm_ext_iff_of_nodup h.nodup List.nodup_range).mpr fun i => ?_
  rw [List.mem_range]
  exact ⟨fun hi => ((h.mem_iff i).mp hi).1, hmem i⟩

theorem Midway.length_le {stack seen : List ContextId} (h : f.Midway stack seen) :
    stack.length + seen.length ≤ f.size := by
  have hsub : (stack ++ seen).Subperm (List.range f.size) :=
    List.subperm_of_subset h.nodup fun i hi => List.mem_range.mpr ((h.mem_iff i).mp hi).1
  simpa using hsub.length_le

/-- A walk ends with every context met. -/
theorem Midway.exists_walks {stack seen : List ContextId} (hlinked : f.Linked)
    (h : f.Midway stack seen) :
    ∃ met, f.Walks stack seen met ∧ met.Perm (List.range f.size) := by
  -- by induction on the number of contexts that have not been met
  induction hn : f.size - seen.length generalizing stack seen with
  | zero =>
    have hlength := h.length_le
    obtain rfl : stack = [] := List.length_eq_zero_iff.mp (by omega)
    exact ⟨seen, .done seen, h.perm_range hlinked⟩
  | succ n ih =>
    cases stack with
    | nil => exact ⟨seen, .done seen, h.perm_range hlinked⟩
    | cons id stack =>
      have hid := (h.mem_iff id).mp (List.mem_cons_self ..)
      have hfresh := (List.nodup_cons.mp h.nodup).1
      obtain ⟨met, hwalks, hperm⟩ := ih (h.step hlinked) (by rw [List.length_cons]; omega)
      refine ⟨met, .step hid.1 (fun hmem => hfresh (List.mem_append_right _ hmem)) ?_ hwalks, hperm⟩
      intro k hk
      rw [hlinked.children_eq] at hk
      exact (mem_below.mp hk).2

theorem Linked.isForest (h : f.Linked) : f.isForest = true := by
  obtain ⟨met, hwalks, hperm⟩ := h.midway_roots.exists_walks h
  have hwalk := hwalks.walk_eq_true (by simpa using hperm.length_eq) (f.size + 1) (by simp)
  rw [Forest.isForest, hwalk, Bool.and_true, List.all_eq_true]
  intro i hi
  rw [h.roots_eq] at hi
  exact beq_iff_eq.mpr (mem_below.mp hi).2

/-! ### Ancestors -/

/-- A context has at most as many ancestors as its number says, so that more levels give no more. -/
theorem Linked.ancestorsFrom_eq (h : f.Linked) {i fuel : Nat} (hi : i ≤ fuel) :
    f.ancestorsFrom fuel i = f.ancestorsFrom i i := by
  induction i using Nat.strongRecOn generalizing fuel with
  | ind i ih =>
    cases hp : f.parent? i with
    | none =>
      have hnil : ∀ n, f.ancestorsFrom n i = [] := by
        intro n
        cases n <;> simp [ancestorsFrom, hp]
      rw [hnil, hnil]
    | some p =>
      have hlt := h.parent_lt i p hp
      have hstep : ∀ n, i ≤ n → f.ancestorsFrom n i = p :: f.ancestorsFrom p p := by
        intro n hn
        cases n with
        | zero => exact absurd (Nat.lt_of_lt_of_le hlt hn) (Nat.not_lt_zero p)
        | succ n =>
          rw [ancestorsFrom, hp, ← ih p hlt (Nat.le_of_lt_succ (Nat.lt_of_lt_of_le hlt hn))]
      rw [hstep fuel hi, hstep i (Nat.le_refl i)]

/-- The ancestors of a context are its parent and the ancestors of that one. -/
theorem Linked.ancestors_eq (h : f.Linked) {i : Nat} (hi : i < f.size) :
    f.ancestors i = match f.parent? i with
      | some p => p :: f.ancestors p
      | none => [] := by
  obtain ⟨n, hn⟩ := Nat.exists_eq_succ_of_ne_zero (Nat.ne_zero_of_lt hi)
  rw [ancestors, hn, ancestorsFrom]
  cases hp : f.parent? i with
  | none => rfl
  | some p =>
    have hlt := h.parent_lt i p hp
    have hle : p ≤ n := Nat.le_of_lt_succ (hn ▸ Nat.lt_trans hlt hi)
    have hsize : p ≤ f.size := Nat.le_of_lt (Nat.lt_trans hlt hi)
    show p :: f.ancestorsFrom n p = p :: f.ancestorsFrom f.size p
    rw [h.ancestorsFrom_eq hle, h.ancestorsFrom_eq hsize]

/-- A context and its ancestors: each is the parent of the one before, and only the last has
none. -/
theorem Linked.isChain_ancestors (h : f.Linked) {i : Nat} (hi : i < f.size) :
    (i :: f.ancestors i).IsChain (fun k p => f.parent? k = some p) ∧
      ∃ r ∈ f.roots, (i :: f.ancestors i).getLast? = some r := by
  induction i using Nat.strongRecOn with
  | ind i ih =>
    rw [h.ancestors_eq hi]
    cases hp : f.parent? i with
    | none =>
      refine ⟨.singleton i, i, ?_, rfl⟩
      rw [h.roots_eq]
      exact mem_below.mpr ⟨hi, hp⟩
    | some p =>
      have hlt := h.parent_lt i p hp
      obtain ⟨hchain, r, hr, hlast⟩ := ih p hlt (Nat.lt_trans hlt hi)
      refine ⟨.cons_cons hp hchain, r, hr, ?_⟩
      rw [List.getLast?_cons_cons]
      exact hlast

/-- The numbers of the contexts are their places; each is larger than that of the parent.  A walk
from the roots meets every context once, as the check says.  Going from a context to its parent, and
on from there, leads down to a root. -/
structure Proper (f : Forest) : Prop where
  id_eq : ∀ i c, f.get? i = some c → c.id = i
  parent_lt : ∀ i p, f.parent? i = some p → p < i
  isForest : f.isForest = true
  walk : ∃ met, f.Walks f.roots.reverse [] met ∧ met.Perm (List.range f.size)
  ancestors_follow : ∀ i < f.size, (i :: f.ancestors i).IsChain fun k p => f.parent? k = some p
  ancestors_decrease : ∀ i < f.size, (i :: f.ancestors i).Pairwise (· > ·)
  ancestors_of_root : ∀ i < f.size, f.parent? i = none → f.ancestors i = []
  ancestors_end : ∀ i < f.size,
    (∃ r ∈ f.roots, f.parent? r = none ∧ (f.ancestors i).getLast? = some r) ↔ f.parent? i ≠ none

end Forest

/-- **Contexts are a forest.**  However contexts are made, each a root or a child of one that is
there already, they are numbered in order, the check of the forest accepts them, and ancestors lead
from every context to a root. -/
theorem made_forest_is_proper {f : Forest} (h : f.Made) : f.Proper := by
  have hlinked := h.linked
  have hroots : ∀ r ∈ f.roots, f.parent? r = none := by
    intro r hr
    rw [hlinked.roots_eq] at hr
    exact (Forest.mem_below.mp hr).2
  refine ⟨hlinked.id_eq, hlinked.parent_lt, hlinked.isForest,
    hlinked.midway_roots.exists_walks hlinked, fun i hi => (hlinked.isChain_ancestors hi).1,
    ?_, ?_, ?_⟩
  · intro i hi
    have hdown : (i :: f.ancestors i).IsChain (· > ·) :=
      (hlinked.isChain_ancestors hi).1.imp fun k p hp => hlinked.parent_lt k p hp
    exact hdown.pairwise
  · intro i hi hp
    rw [hlinked.ancestors_eq hi, hp]
  · intro i hi
    obtain ⟨-, r, hr, hlast⟩ := hlinked.isChain_ancestors hi
    rw [hlinked.ancestors_eq hi] at hlast ⊢
    cases hp : f.parent? i with
    | none => simp
    | some p =>
      rw [hp, List.getLast?_cons_cons] at hlast
      exact ⟨fun _ => by simp, fun _ => ⟨r, hr, hroots r hr, hlast⟩⟩

/-- Two view models; the first has two contexts below it, the second of which was made late. -/
def interleavedForest : Forest :=
  ((((Forest.empty.addRoot 0 none).addChild 0 (.binding 1) none).addRoot 4 (some "Item")).addChild 1
    (.directive 3) (some "Part")).addChild 0 (.binding 0) none

theorem made_forest_is_proper_interleavedForest :
    interleavedForest.Made ∧ interleavedForest.roots = [0, 2] ∧
      interleavedForest.ancestors 3 = [1, 0] ∧ interleavedForest.Proper := by
  have hmade : interleavedForest.Made :=
    .addChild (.addChild (.addRoot (.addChild (.addRoot .empty 0 none) (by decide) _ _) 4 _)
      (by decide) _ _) (by decide) _ _
  exact ⟨hmade, by decide, by decide, made_forest_is_proper hmade⟩

end ViewLint
