import Mathlib.Data.List.Nodup
import Mathlib.Tactic.Common
import ViewLint.Document.Build

/-!
# The tree that building makes

Nodes are only ever added below a node that is there already, and the bindings of an element
are numbered right after its node has been added.  So the two stores of a document stay in
step: every node but the root has a parent with a smaller number, the children of a node are
those that name it as their parent, and every element owns the bindings it lists.

## Main definitions

* `Document.IsTree` — the nodes form a tree.
* `Document.WellFormed` — they do, and every element owns its bindings.

## Main results

* `children_wellFormed` — reading the content of an element keeps a document well-formed.
* `build_wellFormed` — every document that building makes is well-formed.
-/

namespace ViewLint

namespace Document

/-- The nodes of a document form a tree in which parents come first.  A node that replaces the
context, but for the root, says by what. -/
structure IsTree (d : Document) : Prop where
  id_eq : ∀ (i : Nat) (n : Node), d.nodes[i]? = some n → n.id = i
  root_parent : d.parent? root = none
  root_kind : ∃ content, d.kind? root = some (.type content) ∧ content.isRoot = true
  parent_lt : ∀ i : Nat, i < d.nodes.size → i ≠ root → ∃ p : Nat, d.parent? i = some p ∧ p < i
  mem_children : ∀ (i : Nat) (n : Node), d.nodes[i]? = some n →
    ∀ k : Nat, k ∈ n.children ↔ d.parent? k = some i
  children_increasing : ∀ (i : Nat) (n : Node), d.nodes[i]? = some n → n.children.Pairwise (· < ·)
  typed : ∀ (i : Nat) (content : TypeNode), d.kind? i = some (.type content) → i ≠ root →
    content.type.isSome

/-- The number that a binding bears, and the node that it stands on. -/
def owner? (d : Document) (b : BindingId) : Option (BindingId × NodeId) :=
  d.bindings[b]?.map fun x => (x.id, x.node)

/-- The nodes form a tree, and every element has bindings, lists each of them once, and is the
node that they stand on. -/
structure WellFormed (d : Document) : Prop extends IsTree d where
  bindings_ne : ∀ (i : Nat) (content : BindingNode), d.kind? i = some (.binding content) →
    content.bindings ≠ []
  bindings_nodup : ∀ (i : Nat) (content : BindingNode), d.kind? i = some (.binding content) →
    content.bindings.Nodup
  bindings_own : ∀ (i : Nat) (content : BindingNode), d.kind? i = some (.binding content) →
    ∀ b ∈ content.bindings, d.owner? b = some (b, i)

/-! ### Looking at nodes -/

theorem lt_size_of_parent? {d : Document} {i p : Nat} (h : d.parent? i = some p) :
    i < d.nodes.size := by
  by_contra hlt
  rw [parent?, Array.getElem?_eq_none (Nat.le_of_not_lt hlt)] at h
  simp at h

theorem lt_size_of_kind? {d : Document} {i : Nat} {kind : NodeKind}
    (h : d.kind? i = some kind) : i < d.nodes.size := by
  by_contra hlt
  rw [kind?, Array.getElem?_eq_none (Nat.le_of_not_lt hlt)] at h
  simp at h

theorem exists_node {d : Document} {i : Nat} (h : i < d.nodes.size) :
    ∃ n, d.nodes[i]? = some n := ⟨d.nodes[i], Array.getElem?_eq_getElem h⟩

theorem bindingNode?_eq_some {d : Document} {i : Nat} {content : BindingNode} :
    d.bindingNode? i = some content ↔ d.kind? i = some (.binding content) := by
  unfold bindingNode? kind? Node.bindingNode?
  cases d.nodes[i]? with
  | none => simp
  | some n => cases hk : n.kind <;> simp [hk]

theorem not_element_of_type {d : Document} {i : Nat} {content : TypeNode}
    (h : d.kind? i = some (.type content)) : ¬(d.bindingNode? i).isSome := by
  intro hi
  obtain ⟨element, he⟩ := Option.isSome_iff_exists.mp hi
  cases h.symm.trans (bindingNode?_eq_some.mp he)

theorem bindingsOf_eq {d : Document} {i : Nat} {content : BindingNode}
    (h : d.kind? i = some (.binding content)) : d.bindingsOf i = content.bindings := by
  rw [bindingsOf, bindingNode?_eq_some.mpr h]
  rfl

/-- What a document has as nodes decides whether they form a tree. -/
theorem IsTree.congr {d d' : Document} (h : d.IsTree) (hn : d'.nodes = d.nodes) : d'.IsTree := by
  obtain ⟨h₁, h₂, h₃, h₄, h₅, h₆, h₇⟩ := h
  unfold parent? kind? at *
  rw [← hn] at h₁ h₂ h₃ h₄ h₅ h₆ h₇
  exact ⟨h₁, h₂, h₃, h₄, h₅, h₆, h₇⟩

theorem IsTree.size_pos {d : Document} (h : d.IsTree) : root < d.nodes.size := by
  obtain ⟨content, hkind, -⟩ := h.root_kind
  exact lt_size_of_kind? hkind

/-- Only the root has no parent, and a parent is a node that comes before. -/
theorem IsTree.lt_of_parent? {d : Document} (h : d.IsTree) {i p : Nat}
    (hp : d.parent? i = some p) : p < i := by
  have hne : i ≠ root := by
    rintro rfl
    rw [h.root_parent] at hp
    cases hp
  obtain ⟨q, hq, hlt⟩ := h.parent_lt i (lt_size_of_parent? hp) hne
  rw [hp] at hq
  cases hq
  exact hlt

/-- An element has a parent. -/
theorem IsTree.exists_parent {d : Document} (h : d.IsTree) {i : Nat} {content : BindingNode}
    (hi : d.kind? i = some (.binding content)) : ∃ p, d.parent? i = some p := by
  have hne : i ≠ root := by
    rintro rfl
    obtain ⟨c, hc, -⟩ := h.root_kind
    rw [hi] at hc
    cases hc
  obtain ⟨p, hp, -⟩ := h.parent_lt i (lt_size_of_kind? hi) hne
  exact ⟨p, hp⟩

/-- A binding stands on one node only. -/
theorem WellFormed.node_unique {d : Document} (h : d.WellFormed) {i j : Nat} {b : BindingId}
    (hi : b ∈ d.bindingsOf i) (hj : b ∈ d.bindingsOf j) : i = j := by
  have own : ∀ k, b ∈ d.bindingsOf k → d.owner? b = some (b, k) := by
    intro k hk
    cases hc : d.bindingNode? k with
    | none => simp [bindingsOf, hc] at hk
    | some content =>
      have hkind := bindingNode?_eq_some.mp hc
      rw [bindingsOf_eq hkind] at hk
      exact h.bindings_own k content hkind b hk
  have := (own i hi).symm.trans (own j hj)
  simpa using this

/-! ### Adding a node -/

theorem size_addNode (d : Document) (p : Nat) (kind : NodeKind) :
    (d.addNode p kind).nodes.size = d.nodes.size + 1 := by
  simp [addNode]

theorem getElem?_addNode (d : Document) {p : Nat} (hp : p < d.nodes.size) (kind : NodeKind)
    (i : Nat) :
    (d.addNode p kind).nodes[i]? =
      if i = d.nodes.size then some ⟨d.nodes.size, some p, [], kind⟩
      else d.nodes[i]?.map fun n =>
        if p = i then { n with children := n.children ++ [d.nodes.size] } else n := by
  rw [addNode, Array.getElem?_modify, Array.getElem?_push]
  by_cases hi : i = d.nodes.size
  · have hne : p ≠ i := by omega
    simp [hi, hi ▸ hne]
  · by_cases hpi : p = i <;> simp [hi, hpi]

theorem parent?_addNode (d : Document) {p : Nat} (hp : p < d.nodes.size) (kind : NodeKind)
    (i : Nat) :
    (d.addNode p kind).parent? i = if i = d.nodes.size then some p else d.parent? i := by
  rw [parent?, getElem?_addNode d hp]
  by_cases hi : i = d.nodes.size
  · simp [hi]
  · rw [if_neg hi, if_neg hi, parent?]
    cases d.nodes[i]? with
    | none => rfl
    | some n => by_cases hpi : p = i <;> simp [hpi]

theorem kind?_addNode (d : Document) {p : Nat} (hp : p < d.nodes.size) (kind : NodeKind)
    (i : Nat) :
    (d.addNode p kind).kind? i = if i = d.nodes.size then some kind else d.kind? i := by
  rw [kind?, getElem?_addNode d hp]
  by_cases hi : i = d.nodes.size
  · simp [hi]
  · rw [if_neg hi, if_neg hi, kind?]
    cases d.nodes[i]? with
    | none => rfl
    | some n => by_cases hpi : p = i <;> simp [hpi]

/-- The new node is a child of its parent, and has no children itself. -/
theorem IsTree.mem_children_addNode {d : Document} (h : d.IsTree) {p : Nat}
    (hp : p < d.nodes.size) {kind : NodeKind} {i : Nat} {n : Node}
    (hn : (d.addNode p kind).nodes[i]? = some n) (k : Nat) :
    k ∈ n.children ↔ (d.addNode p kind).parent? k = some i := by
  rw [getElem?_addNode d hp] at hn
  rw [parent?_addNode d hp]
  split at hn
  · next hi =>
    cases hn
    split
    · simp only [List.not_mem_nil, Option.some.injEq, false_iff]
      omega
    · simp only [List.not_mem_nil, false_iff]
      intro hk
      have hlt := h.lt_of_parent? hk
      have hsize := lt_size_of_parent? hk
      omega
  · obtain ⟨m, hm, rfl⟩ := Option.map_eq_some_iff.mp hn
    have hmem := h.mem_children i m hm k
    by_cases hk : k = d.nodes.size
    · have hnot : k ∉ m.children := by
        intro hmc
        have hsize := lt_size_of_parent? (hmem.mp hmc)
        omega
      by_cases hpi : p = i <;> simp [hpi, hk, hk ▸ hnot]
    · by_cases hpi : p = i <;> simp [hpi, hk, hmem]

/-- The new child has the largest number so far. -/
theorem IsTree.pairwise_children_addNode {d : Document} (h : d.IsTree) {p : Nat}
    (hp : p < d.nodes.size) {kind : NodeKind} {i : Nat} {n : Node}
    (hn : (d.addNode p kind).nodes[i]? = some n) : n.children.Pairwise (· < ·) := by
  rw [getElem?_addNode d hp] at hn
  split at hn
  · cases hn
    exact List.Pairwise.nil
  · obtain ⟨m, hm, rfl⟩ := Option.map_eq_some_iff.mp hn
    have hinc := h.children_increasing i m hm
    split
    · refine List.pairwise_append.mpr ⟨hinc, List.pairwise_singleton _ _, ?_⟩
      intro a ha b hb
      rw [List.mem_singleton.mp hb]
      exact lt_size_of_parent? ((h.mem_children i m hm a).mp ha)
    · exact hinc

/-- Growing a tree below one of its nodes gives a tree. -/
theorem IsTree.addNode {d : Document} (h : d.IsTree) {p : Nat} (hp : p < d.nodes.size)
    {kind : NodeKind} (hkind : ∀ content, kind = .type content → content.type.isSome) :
    (d.addNode p kind).IsTree := by
  have hroot : root ≠ d.nodes.size := Nat.ne_of_lt h.size_pos
  refine ⟨?_, ?_, ?_, ?_, fun i n hn => h.mem_children_addNode hp hn,
    fun i n hn => h.pairwise_children_addNode hp hn, ?_⟩
  · intro i n hn
    rw [getElem?_addNode d hp] at hn
    split at hn
    · cases hn
      exact Eq.symm ‹_›
    · obtain ⟨m, hm, rfl⟩ := Option.map_eq_some_iff.mp hn
      have hid := h.id_eq i m hm
      split <;> exact hid
  · rw [parent?_addNode d hp, if_neg hroot]
    exact h.root_parent
  · rw [kind?_addNode d hp, if_neg hroot]
    exact h.root_kind
  · intro i hi hne
    rw [size_addNode] at hi
    rw [parent?_addNode d hp]
    split
    · exact ⟨p, rfl, by omega⟩
    · exact h.parent_lt i (by omega) hne
  · intro i content hi hne
    rw [kind?_addNode d hp] at hi
    split at hi
    · cases hi
      exact hkind content rfl
    · exact h.typed i content hi hne

/-! ### Declaring the view model -/

theorem getElem?_setKind (d : Document) (j : Nat) (f : NodeKind → NodeKind) (i : Nat) :
    (d.setKind j f).nodes[i]? =
      d.nodes[i]?.map fun n => if j = i then { n with kind := f n.kind } else n := by
  rw [setKind, Array.getElem?_modify]
  by_cases hji : j = i <;> simp [hji]

theorem size_setKind (d : Document) (j : Nat) (f : NodeKind → NodeKind) :
    (d.setKind j f).nodes.size = d.nodes.size := by
  simp [setKind]

theorem parent?_setKind (d : Document) (j : Nat) (f : NodeKind → NodeKind) (i : Nat) :
    (d.setKind j f).parent? i = d.parent? i := by
  rw [parent?, getElem?_setKind, parent?]
  cases d.nodes[i]? with
  | none => rfl
  | some n => by_cases hji : j = i <;> simp [hji]

theorem kind?_setKind (d : Document) (j : Nat) (f : NodeKind → NodeKind) (i : Nat) :
    (d.setKind j f).kind? i = (d.kind? i).map fun kind => if j = i then f kind else kind := by
  rw [kind?, getElem?_setKind, kind?]
  cases d.nodes[i]? with
  | none => rfl
  | some n => by_cases hji : j = i <;> simp [hji]

/-- Giving the root a type keeps the tree. -/
theorem IsTree.setRoot {d : Document} (h : d.IsTree) (type : TypeReference)
    (location : Location) :
    (d.setKind root fun _ => .type ⟨some type, true, some location⟩).IsTree := by
  constructor
  · intro i n hn
    rw [getElem?_setKind] at hn
    obtain ⟨m, hm, rfl⟩ := Option.map_eq_some_iff.mp hn
    have := h.id_eq i m hm
    split <;> exact this
  · rw [parent?_setKind]
    exact h.root_parent
  · obtain ⟨content, hc, -⟩ := h.root_kind
    rw [kind?_setKind, hc]
    exact ⟨⟨some type, true, some location⟩, by simp, rfl⟩
  · intro i hi hne
    rw [size_setKind] at hi
    rw [parent?_setKind]
    exact h.parent_lt i hi hne
  · intro i n hn k
    rw [getElem?_setKind] at hn
    obtain ⟨m, hm, rfl⟩ := Option.map_eq_some_iff.mp hn
    rw [parent?_setKind, ← h.mem_children i m hm k]
    split <;> exact Iff.rfl
  · intro i n hn
    rw [getElem?_setKind] at hn
    obtain ⟨m, hm, rfl⟩ := Option.map_eq_some_iff.mp hn
    have := h.children_increasing i m hm
    split <;> exact this
  · intro i content hi hne
    rw [kind?_setKind] at hi
    obtain ⟨kind, hkind, heq⟩ := Option.map_eq_some_iff.mp hi
    rw [if_neg (Ne.symm hne)] at heq
    subst heq
    exact h.typed i content hkind hne

/-! ### Adding bindings -/

@[simp] theorem nodes_addBinding (d : Document) (b : ParsedBinding) (node : Nat)
    (parent : Option BindingId) : (d.addBinding b node parent).nodes = d.nodes := rfl

theorem size_addBinding (d : Document) (b : ParsedBinding) (node : Nat)
    (parent : Option BindingId) :
    (d.addBinding b node parent).bindings.size = d.bindings.size + 1 := by
  cases parent <;> simp [addBinding]

/-- The new binding nests under one that is there already. -/
theorem getElem?_addBinding (d : Document) (b : ParsedBinding) (node : Nat)
    {parent : Option BindingId} (hparent : ∀ p, parent = some p → p < d.bindings.size) (i : Nat) :
    (d.addBinding b node parent).bindings[i]? =
      if i = d.bindings.size then
        some ⟨d.bindings.size, b.handler, b.expression, b.itemAlias, node, parent, []⟩
      else d.bindings[i]?.map fun x =>
        if parent = some i then { x with children := x.children ++ [d.bindings.size] } else x := by
  cases parent with
  | none =>
    simp only [addBinding, Array.getElem?_push]
    split <;> simp
  | some p =>
    simp only [addBinding, Array.getElem?_modify, Array.getElem?_push]
    by_cases hi : i = d.bindings.size
    · have hne : p ≠ i := Nat.ne_of_lt (hi ▸ hparent p rfl)
      simp [hi, hi ▸ hne]
    · by_cases hpi : p = i <;> simp [hi, hpi]

/-- Adding a binding changes neither the number nor the node of another one. -/
theorem owner?_addBinding (d : Document) (b : ParsedBinding) (node : Nat)
    (parent : Option BindingId) (j : Nat) :
    (d.addBinding b node parent).owner? j =
      if j = d.bindings.size then some (j, node) else d.owner? j := by
  unfold owner?
  cases parent with
  | none =>
    simp only [addBinding, Array.getElem?_push]
    split <;> simp_all
  | some p =>
    simp only [addBinding, Array.getElem?_modify, Array.getElem?_push]
    by_cases hj : j = d.bindings.size
    · by_cases hpj : p = j <;> simp_all
    · by_cases hpj : p = j
      · simp only [hpj, hj, if_true, if_false]
        cases d.bindings[j]? <;> rfl
      · simp [hpj, hj]

end Document

namespace Builder

open Document Markup

@[simp] theorem nodes_addBindings (b : Builder) (node : Nat) (parent : Option BindingId)
    (ps : List ParsedBinding) :
    (b.addBindings node parent ps).document.nodes = b.document.nodes := by
  induction ps generalizing b with
  | nil => rfl
  | cons p ps ih => rw [addBindings, ih, nodes_addBinding]

/-- The bindings of an element get the next numbers, one after the other. -/
theorem owner?_addBindings (b : Builder) (node : Nat) (parent : Option BindingId)
    (ps : List ParsedBinding) (j : Nat) :
    (b.addBindings node parent ps).document.owner? j =
      if b.document.bindings.size ≤ j ∧ j < b.document.bindings.size + ps.length then
        some (j, node)
      else b.document.owner? j := by
  induction ps generalizing b with
  | nil =>
    rw [addBindings, if_neg (by simp only [List.length_nil]; omega)]
  | cons p ps ih =>
    rw [addBindings, ih]
    simp only [size_addBinding, owner?_addBinding, List.length_cons]
    by_cases hj : j = b.document.bindings.size
    · simp [hj]
    · by_cases hin : b.document.bindings.size + 1 ≤ j ∧
          j < b.document.bindings.size + 1 + ps.length
      · rw [if_pos hin, if_pos (by omega)]
      · rw [if_neg hin, if_neg hj, if_neg (by omega)]

end Builder

namespace Document

/-! ### Well-formed documents -/

/-- A tree whose elements are those of a well-formed document is well-formed with it. -/
theorem WellFormed.of_isTree {d d' : Document} (h : d.WellFormed) (htree : d'.IsTree)
    (hkind : ∀ (i : Nat) (content : BindingNode), d'.kind? i = some (.binding content) →
      d.kind? i = some (.binding content))
    (hb : d'.bindings = d.bindings) : d'.WellFormed := by
  refine ⟨htree, ?_, ?_, ?_⟩
  · intro i content hi
    exact h.bindings_ne i content (hkind i content hi)
  · intro i content hi
    exact h.bindings_nodup i content (hkind i content hi)
  · intro i content hi b hmem
    rw [owner?, hb]
    exact h.bindings_own i content (hkind i content hi) b hmem

/-- The stores of a document decide whether it is well-formed. -/
theorem WellFormed.congr {d d' : Document} (h : d.WellFormed) (hn : d'.nodes = d.nodes)
    (hb : d'.bindings = d.bindings) : d'.WellFormed := by
  refine h.of_isTree (h.toIsTree.congr hn) ?_ hb
  intro i content hi
  rw [kind?, hn] at hi
  exact hi

theorem wellFormed_empty (file : String) (dialect : Dialect) (text : String) :
    (empty file dialect text).WellFormed := by
  have hnode : ∀ i, (empty file dialect text).nodes[i]? =
      if i = 0 then some ⟨root, none, [], .type ⟨none, true, none⟩⟩ else none := by
    intro i
    simp only [empty]
    cases i <;> rfl
  have hkind : ∀ i kind, (empty file dialect text).kind? i = some kind →
      i = 0 ∧ kind = .type ⟨none, true, none⟩ := by
    intro i kind hi
    rw [kind?, hnode] at hi
    split at hi
    · simp_all
    · simp at hi
  have hparent : ∀ i, (empty file dialect text).parent? i = none := by
    intro i
    rw [parent?, hnode]
    split <;> rfl
  refine ⟨⟨?_, hparent root, ⟨_, rfl, rfl⟩, ?_, ?_, ?_, ?_⟩, ?_, ?_, ?_⟩
  · intro i n hn
    rw [hnode] at hn
    split at hn
    · cases hn
      exact Eq.symm ‹_›
    · cases hn
  · intro i hi hne
    have : i < 1 := hi
    exact absurd (Nat.lt_one_iff.mp this) hne
  · intro i n hn k
    rw [hnode] at hn
    split at hn <;> cases hn
    simp [hparent]
  · intro i n hn
    rw [hnode] at hn
    split at hn <;> cases hn
    exact List.Pairwise.nil
  · intro i content hi hne
    exact absurd (hkind i _ hi).1 hne
  · intro i content hi
    cases (hkind i _ hi).2
  · intro i content hi
    cases (hkind i _ hi).2
  · intro i content hi
    cases (hkind i _ hi).2

/-- A place where the context is replaced can be added anywhere. -/
theorem WellFormed.addType {d : Document} (h : d.WellFormed) {p : Nat} (hp : p < d.nodes.size)
    {content : TypeNode} (htype : content.type.isSome) :
    (d.addNode p (.type content)).WellFormed := by
  refine h.of_isTree (h.toIsTree.addNode hp ?_) ?_ rfl
  · rintro _ ⟨⟩
    exact htype
  · intro i c hi
    rw [kind?_addNode d hp] at hi
    split at hi
    · cases hi
    · exact hi

theorem WellFormed.setRoot {d : Document} (h : d.WellFormed) (type : TypeReference)
    (location : Location) :
    (d.setKind root fun _ => .type ⟨some type, true, some location⟩).WellFormed := by
  refine h.of_isTree (h.toIsTree.setRoot type location) ?_ rfl
  intro i c hi
  rw [kind?_setKind] at hi
  obtain ⟨kind, hkind, heq⟩ := Option.map_eq_some_iff.mp hi
  split at heq
  · cases heq
  · rw [hkind, heq]

end Document

namespace Builder

open Document Markup

/-- An element is added with its bindings, which get the next numbers. -/
theorem wellFormed_addElement {b : Builder} (h : b.document.WellFormed) {p : Nat}
    (hp : p < b.document.nodes.size) {content : BindingNode} {found : List ParsedBinding}
    (hne : found ≠ []) (parent : Option BindingId)
    (hids : content.bindings =
      (List.range found.length).map (b.document.bindings.size + ·)) :
    ((b.addNode p (.binding content)).2.addBindings b.document.nodes.size parent
      found).document.WellFormed := by
  let b' := ((b.addNode p (.binding content)).2.addBindings b.document.nodes.size parent found)
  have hnodes : b'.document.nodes = (b.document.addNode p (.binding content)).nodes :=
    nodes_addBindings _ _ _ _
  have hkind : ∀ i, b'.document.kind? i =
      if i = b.document.nodes.size then some (.binding content) else b.document.kind? i := by
    intro i
    rw [kind?, hnodes]
    exact kind?_addNode b.document hp _ i
  refine ⟨(h.toIsTree.addNode hp (fun c hc => by cases hc)).congr hnodes, ?_, ?_, ?_⟩
  · intro i c hi
    rw [hkind] at hi
    split at hi
    · cases hi
      rw [hids]
      simpa using hne
    · exact h.bindings_ne i c hi
  · intro i c hi
    rw [hkind] at hi
    split at hi
    · cases hi
      rw [hids]
      exact List.nodup_range.map (fun x y hxy => Nat.add_left_cancel hxy)
    · exact h.bindings_nodup i c hi
  · intro i c hi j hj
    rw [hkind] at hi
    rw [owner?_addBindings]
    split at hi
    · rename_i hieq
      cases hi
      rw [hids] at hj
      obtain ⟨k, hk, rfl⟩ := List.mem_map.mp hj
      have hlt := List.mem_range.mp hk
      rw [if_pos ⟨Nat.le_add_right _ _, Nat.add_lt_add_left hlt _⟩, hieq]
    · -- the bindings of the other elements have smaller numbers
      have hown := h.bindings_own i c hi j hj
      have hlt : j < b.document.bindings.size := by
        obtain ⟨x, hx, -⟩ := Option.map_eq_some_iff.mp hown
        exact (Array.getElem?_eq_some_iff.mp hx).1
      rw [if_neg (fun hin => absurd hin.1 (Nat.not_le_of_lt hlt))]
      exact hown

/-! ### Steps of the builder -/

/-- After a step of the builder the document is well-formed, no node is lost, and the active
node is one of its nodes. -/
structure Grows (d d' : Document) (active : Nat) : Prop where
  wellFormed : d'.WellFormed
  size_le : d.nodes.size ≤ d'.nodes.size
  active_lt : active < d'.nodes.size

theorem grows_addType {b : Builder} (h : b.document.WellFormed) {current : Nat}
    (hc : current < b.document.nodes.size) (content : TypeNode) (htype : content.type.isSome) :
    Grows b.document (b.addNode current (.type content)).2.document
      (b.addNode current (.type content)).1 := by
  refine ⟨h.addType hc htype, ?_, ?_⟩
  · exact Nat.le_trans (Nat.le_succ _) (Nat.le_of_eq (size_addNode _ _ _).symm)
  · exact Nat.lt_of_lt_of_eq (Nat.lt_succ_self _) (size_addNode _ _ _).symm

theorem grows_directive {b : Builder} (h : b.document.WellFormed) {current : Nat}
    (hc : current < b.document.nodes.size) (content : Directive) :
    Grows b.document (b.directive current content).2.document
      (b.directive current content).1 := by
  cases content with
  | imports content => exact ⟨h.congr rfl rfl, Nat.le_refl _, hc⟩
  | viewmodel location type =>
    unfold directive viewmodel
    dsimp only
    split
    · -- the first view model of the view gives the root its type
      have hsize := size_setKind b.document root fun _ => .type ⟨some type, true, some location⟩
      exact ⟨h.setRoot type location, Nat.le_of_eq hsize.symm, Nat.lt_of_lt_of_eq hc hsize.symm⟩
    · exact grows_addType (b := { b with viewmodels := b.viewmodels ++ [type] }.report
        .multipleViewmodelReferences (some location) []) h hc
        ⟨some type, true, some location⟩ rfl
  | context location type =>
    exact grows_addType h hc ⟨some type, false, some location⟩ rfl
  | lint location keys enable => exact ⟨h.congr rfl rfl, Nat.le_refl _, hc⟩

theorem grows_addElement {b : Builder} (h : b.document.WellFormed) {current : Nat}
    (hc : current < b.document.nodes.size) (content : BindingNode) {found : List ParsedBinding}
    (hne : found ≠ []) (parent : Option BindingId)
    (hids : content.bindings =
      (List.range found.length).map (b.document.bindings.size + ·)) :
    Grows b.document ((b.addNode current (.binding content)).2.addBindings
      b.document.nodes.size parent found).document b.document.nodes.size := by
  have hsize : ((b.addNode current (.binding content)).2.addBindings b.document.nodes.size parent
      found).document.nodes.size = b.document.nodes.size + 1 := by
    rw [nodes_addBindings]
    exact size_addNode _ _ _
  refine ⟨wellFormed_addElement h hc hne parent hids, ?_, ?_⟩
  · rw [hsize]
    exact Nat.le_succ _
  · rw [hsize]
    exact Nat.lt_succ_self _

/-- Reading payloads reports errors, and leaves the document alone. -/
@[simp] theorem document_payloads [ScriptParser] (b : Builder) (ps : List Payload) :
    (b.payloads ps).2.document = b.document := by
  induction ps generalizing b with
  | nil => rfl
  | cons p ps ih =>
    rw [payloads]
    split
    · exact ih b
    · rw [ih]

@[simp] theorem document_checkComment (b : Builder) (e : Element) (found : List ParsedBinding) :
    (b.checkComment e found).document = b.document := by
  unfold checkComment
  split <;> rfl

@[simp] theorem document_checkDeclared (b : Builder) (e : Element)
    (found : List ParsedBinding) : (b.checkDeclared e found).document = b.document := by
  unfold checkDeclared
  dsimp only
  split <;> rfl

theorem grows_element [ScriptParser] {b : Builder} (h : b.document.WellFormed) {current : Nat}
    (hc : current < b.document.nodes.size) (context : Option BindingId) (e : Element) :
    Grows b.document (b.element current context e).2.document
      (b.element current context e).1.1 := by
  unfold element
  have hdoc := document_payloads b e.bindings
  generalize b.payloads e.bindings = read at hdoc
  obtain ⟨found, b₁⟩ := read
  dsimp only at hdoc ⊢
  split
  · -- no bindings, no node
    rw [← hdoc] at h hc
    exact ⟨h, Nat.le_of_eq (by rw [hdoc]), hc⟩
  · rename_i hfound
    have hne : found ≠ [] := by simpa using hfound
    let b₂ := (b₁.checkComment e found).checkDeclared e found
    have hdoc₂ : b₂.document = b.document := by simp [b₂, hdoc]
    rw [← hdoc₂] at h hc
    let content : BindingNode :=
      ⟨e.tag, e.location, (List.range found.length).map (b₂.document.bindings.size + ·),
        e.isVirtual, decide (1 < (b₂.declaredOf found).length)⟩
    have hstep := grows_addElement h hc content hne context rfl
    exact ⟨hstep.wellFormed, hdoc₂ ▸ hstep.size_le, hstep.active_lt⟩

end Builder

open Markup

/-- Reading the content of an element keeps the document well-formed and loses no node, so
that the node that was active around the element can become active again. -/
theorem children_wellFormed [ScriptParser] (fuel : Nat) (f : Frame) (b : Builder) (ts : List Token)
    {b' : Builder} {rest : List Token} (hok : children fuel f b ts = .ok (b', rest))
    (h : b.document.WellFormed) (hc : f.current < b.document.nodes.size) :
    b'.document.WellFormed ∧ b.document.nodes.size ≤ b'.document.nodes.size := by
  induction fuel generalizing f b ts b' rest with
  | zero =>
    rw [children] at hok
    cases hok
    exact ⟨h, Nat.le_refl _⟩
  | succ fuel ih =>
    cases ts with
    | nil =>
      rw [children] at hok
      split at hok
      · cases hok
      · cases hok
        exact ⟨h, Nat.le_refl _⟩
      · simp
    | cons t ts =>
      cases t with
      | directive content =>
        rw [children] at hok
        have hstep := Builder.grows_directive h hc content
        obtain ⟨hwf, hle⟩ := ih _ _ _ hok hstep.wellFormed hstep.active_lt
        exact ⟨hwf, Nat.le_trans hstep.size_le hle⟩
      | element e =>
        rw [children] at hok
        split at hok
        · -- an end tag
          split at hok
          · cases hok
            exact ⟨h, Nat.le_refl _⟩
          · cases hok
        · -- an element without content: the active node stays
          have hstep := Builder.grows_element h hc f.context e
          obtain ⟨hwf, hle⟩ :=
            ih f _ _ hok hstep.wellFormed (Nat.lt_of_lt_of_le hc hstep.size_le)
          exact ⟨hwf, Nat.le_trans hstep.size_le hle⟩
        · -- a start tag: the content, and then what follows the end tag
          split at hok
          · cases hok
          · have hstep := Builder.grows_element h hc f.context e
            dsimp only at hok
            split at hok
            · cases hok
            · rename_i b₁ rest₁ hinner
              obtain ⟨hwf₁, hle₁⟩ := ih _ _ _ hinner hstep.wellFormed hstep.active_lt
              have hle := Nat.le_trans hstep.size_le hle₁
              obtain ⟨hwf, hle₂⟩ := ih f _ _ hok hwf₁ (Nat.lt_of_lt_of_le hc hle)
              exact ⟨hwf, Nat.le_trans hle hle₂⟩

/-- The checks that need the whole view only report. -/
theorem Builder.document_finish (b : Builder) : b.finish.document = b.document := by
  have hcheck : ∀ (types : List TypeReference) (b : Builder),
      (types.foldl checkViewmodel b).document = b.document := by
    intro types
    induction types with
    | nil => exact fun _ => rfl
    | cons t ts ih =>
      intro b
      rw [List.foldl_cons, ih, checkViewmodel]
      split <;> rfl
  unfold finish
  dsimp only
  rw [hcheck]
  split <;> rfl

/-- Every document that building makes is well-formed. -/
theorem build_wellFormed [ScriptParser] {file text : String} {tokenized : Tokenized}
    {handlers : Handlers} {d : Document}
    (h : (build file text tokenized handlers).document = some d) :
    d.WellFormed := by
  unfold build at h
  split at h
  · cases h
  · rename_i b rest hok
    simp only [Option.some.injEq] at h
    rw [← h, Builder.document_finish]
    exact (children_wellFormed _ _ _ _ hok
      (Document.wellFormed_empty file tokenized.dialect text) (Nat.zero_lt_one)).1

end ViewLint
