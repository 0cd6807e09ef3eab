import Mathlib.Data.List.Nodup
import Mathlib.Data.List.TakeWhile
import ViewLint.Document.Walk
import ViewLint.Proofs.Document.Tree

/-!
# Walks and levels

A walk from the root goes down the lists of children, while depths and levels are counted
upwards along the parents.  In a tree the two ways agree: a walk meets exactly the nodes that
have its start among their ancestors, and meets none of them twice.

The *level* of a node counts elements with bindings upwards to the nearest view model only,
since a view model makes its content independent of what is around it.

## Main definitions

* `Document.Below` — a node stands below another one, or is it.
* `Document.metFrom` — the nodes that a walk meets.
* `Document.ancestry` — a node and those around it, the innermost first.
* `Document.level` — the elements with bindings between a node and the view model around it.

## Main results

* `Document.IsTree.mem_metFrom`, `Document.IsTree.pairwise_metFrom` — which nodes a walk meets, and
  in which order.
* `Document.IsTree.mem_bindingNodes`, `Document.IsTree.nodup_bindingNodes` — the elements with
  bindings, each once.
* `Document.IsTree.level_element`, `Document.level_root`, `Document.IsTree.level_directive` —
  how levels go down the tree.
* `Document.level_le_bindingDepth` — a level is no more than a depth.
-/

namespace ViewLint

/-- The node that a walk meets, if it does not meet a binding. -/
def Visit.id? : Visit → Option NodeId
  | .pruned id => some id
  | .type id _ => some id
  | .node id _ => some id
  | .binding _ _ => none

/-- The element that a walk meets, if it meets one. -/
def Visit.node? : Visit → Option NodeId
  | .node id _ => some id
  | _ => none

namespace Document

/-- `d.Below a n` says that the node `n` is `a` or stands below it. -/
inductive Below (d : Document) (a : Nat) : Nat → Prop where
  | self : Below d a a
  | step {n p : Nat} : d.parent? n = some p → Below d a p → Below d a n

variable {d : Document}

/-! ### Nodes below a node -/

theorem Below.le (h : d.IsTree) {a n : Nat} (hb : d.Below a n) : a ≤ n := by
  induction hb with
  | self => exact Nat.le_refl _
  | step hp _ ih => exact Nat.le_trans ih (Nat.le_of_lt (h.lt_of_parent? hp))

/-- Every node is below the root. -/
theorem IsTree.below_root (h : d.IsTree) {n : Nat} (hn : n < d.nodes.size) : d.Below root n := by
  induction n using Nat.strong_induction_on with
  | _ n ih =>
    by_cases hroot : n = root
    · rw [hroot]
      exact .self
    · obtain ⟨p, hp, hlt⟩ := h.parent_lt n hn hroot
      exact .step hp (ih p hlt (Nat.lt_trans hlt hn))

/-- A node below another one is below one of its children. -/
theorem Below.eq_or_child {a n : Nat} (hb : d.Below a n) :
    n = a ∨ ∃ k : Nat, d.parent? k = some a ∧ d.Below k n := by
  induction hb with
  | self => exact .inl rfl
  | @step n p hp _ ih =>
    rcases ih with rfl | ⟨k, hk, hkp⟩
    · exact .inr ⟨n, hp, .self⟩
    · exact .inr ⟨k, hk, .step hp hkp⟩

theorem Below.trans {a k n : Nat} (hk : d.Below a k) (hb : d.Below k n) : d.Below a n := by
  induction hb with
  | self => exact hk
  | step hp _ ih => exact .step hp ih

/-- The nodes that a node is below are below each other. -/
theorem Below.total {a b n : Nat} (ha : d.Below a n) (hb : d.Below b n) :
    d.Below a b ∨ d.Below b a := by
  induction ha with
  | self => exact .inr hb
  | @step n p hp hap ih =>
    cases hb with
    | self => exact .inl (.step hp hap)
    | step hp' hbp =>
      rw [hp] at hp'
      cases hp'
      exact ih hbp

/-- No node is below two children of one node. -/
theorem IsTree.child_unique (h : d.IsTree) {a j k n : Nat} (hj : d.parent? j = some a)
    (hk : d.parent? k = some a) (hjn : d.Below j n) (hkn : d.Below k n) : j = k := by
  have key : ∀ {j k : Nat}, d.parent? j = some a → d.parent? k = some a → d.Below j k → j = k := by
    intro j k hj hk hjk
    cases hjk with
    | self => rfl
    | step hp hjp =>
      rw [hk] at hp
      cases hp
      exact absurd (hjp.le h) (Nat.not_le_of_lt (h.lt_of_parent? hj))
  rcases hjn.total hkn with hjk | hkj
  · exact key hj hk hjk
  · exact (key hk hj hkj).symm

/-! ### Walks -/

/-- The nodes that a walk from a node meets. -/
def metFrom (d : Document) (fuel : Nat) (i : Nat) : List NodeId :=
  (d.walkFrom (fun _ => false) fuel i).filterMap Visit.id?

/-- A walk shows the bindings of an element behind the element itself. -/
theorem filterMap_bindings {f : Visit → Option NodeId} (hf : ∀ b name, f (.binding b name) = none)
    (bs : List Binding) :
    (bs.map fun b => Visit.binding b.id b.handler.value).filterMap f = [] := by
  rw [List.filterMap_eq_nil_iff]
  intro visit hvisit
  obtain ⟨b, -, rfl⟩ := List.mem_map.mp hvisit
  exact hf _ _

theorem filterMap_id?_visitsOf (d : Document) (n : Node) :
    (d.visitsOf n).filterMap Visit.id? = [n.id] := by
  unfold visitsOf
  cases n.kind with
  | type content => rfl
  | binding content =>
    rw [List.filterMap_cons_some (by rfl), filterMap_bindings fun _ _ => rfl]

theorem filterMap_node?_visitsOf (d : Document) (n : Node) :
    (d.visitsOf n).filterMap Visit.node? = if n.bindingNode?.isSome then [n.id] else [] := by
  unfold visitsOf Node.bindingNode?
  cases n.kind with
  | type content => rfl
  | binding content =>
    rw [List.filterMap_cons_some (by rfl), filterMap_bindings fun _ _ => rfl]
    rfl

theorem walkFrom_succ {i : Nat} {n : Node} (hn : d.nodes[i]? = some n) (fuel : Nat) :
    d.walkFrom (fun _ => false) (fuel + 1) i =
      d.visitsOf n ++ n.children.flatMap (d.walkFrom (fun _ => false) fuel) := by
  rw [walkFrom, hn]
  simp only [Bool.false_eq_true, if_false]

theorem metFrom_succ {i : Nat} {n : Node} (hn : d.nodes[i]? = some n) (fuel : Nat) :
    d.metFrom (fuel + 1) i = n.id :: n.children.flatMap (d.metFrom fuel) := by
  unfold metFrom
  rw [walkFrom_succ hn, List.filterMap_append, filterMap_id?_visitsOf, List.filterMap_flatMap,
    List.singleton_append]

/-- A walk that goes deep enough meets the nodes at and below its start. -/
theorem IsTree.mem_metFrom (h : d.IsTree) {fuel i : Nat} (hi : i < d.nodes.size)
    (hfuel : d.nodes.size ≤ fuel + i) {k : Nat} : k ∈ d.metFrom fuel i ↔ d.Below i k := by
  induction fuel generalizing i with
  | zero => omega
  | succ fuel ih =>
    obtain ⟨n, hn⟩ := exists_node hi
    -- the children have larger numbers, so one level less is deep enough for them
    have hchild : ∀ c ∈ n.children, (k ∈ d.metFrom fuel c ↔ d.Below c k) := by
      intro c hc
      have hp := (h.mem_children i n hn c).mp hc
      have hlt := h.lt_of_parent? hp
      exact ih (lt_size_of_parent? hp) (by omega)
    rw [metFrom_succ hn, List.mem_cons, List.mem_flatMap, h.id_eq i n hn]
    constructor
    · rintro (rfl | ⟨c, hc, hk⟩)
      · exact .self
      · have hp := (h.mem_children i n hn c).mp hc
        exact (Below.step hp .self).trans ((hchild c hc).mp hk)
    · intro hbelow
      rcases hbelow.eq_or_child with rfl | ⟨c, hc, hck⟩
      · exact .inl rfl
      · have hmem := (h.mem_children i n hn c).mpr hc
        exact .inr ⟨c, hmem, (hchild c hmem).mpr hck⟩

/-- A relation holds along a walk if it holds from a node to those below it, and between the nodes
below two of its children. -/
theorem IsTree.pairwise_metFrom (h : d.IsTree) {R : Nat → Nat → Prop}
    (hdown : ∀ i k : Nat, i < k → d.Below i k → R i k)
    (hacross : ∀ i a b k l : Nat, d.parent? a = some i → d.parent? b = some i → a < b →
      d.Below a k → d.Below b l → R k l)
    {fuel i : Nat} (hi : i < d.nodes.size) (hfuel : d.nodes.size ≤ fuel + i) :
    (d.metFrom fuel i).Pairwise R := by
  induction fuel generalizing i with
  | zero => omega
  | succ fuel ih =>
    obtain ⟨n, hn⟩ := exists_node hi
    have hchild : ∀ c ∈ n.children,
        d.parent? c = some i ∧ c < d.nodes.size ∧ d.nodes.size ≤ fuel + c := by
      intro c hc
      have hp := (h.mem_children i n hn c).mp hc
      have hlt := h.lt_of_parent? hp
      exact ⟨hp, lt_size_of_parent? hp, by omega⟩
    rw [metFrom_succ hn, h.id_eq i n hn, List.pairwise_cons, List.pairwise_flatMap]
    refine ⟨?_, ?_, ?_⟩
    · intro k hk
      obtain ⟨c, hc, hkc⟩ := List.mem_flatMap.mp hk
      obtain ⟨hpc, hsc, hfc⟩ := hchild c hc
      have hck := (h.mem_metFrom hsc hfc).mp hkc
      exact hdown i k (Nat.lt_of_lt_of_le (h.lt_of_parent? hpc) (hck.le h))
        ((Below.step hpc .self).trans hck)
    · intro c hc
      exact ih (hchild c hc).2.1 (hchild c hc).2.2
    · refine (h.children_increasing i n hn).imp_of_mem ?_
      intro a b ha hb hab k hk l hl
      obtain ⟨hpa, hsa, hfa⟩ := hchild a ha
      obtain ⟨hpb, hsb, hfb⟩ := hchild b hb
      exact hacross i a b k l hpa hpb hab ((h.mem_metFrom hsa hfa).mp hk)
        ((h.mem_metFrom hsb hfb).mp hl)

/-- A walk meets no node twice: the subtrees of two children have nothing in common, and the node
itself is in none of them. -/
theorem IsTree.nodup_metFrom (h : d.IsTree) {fuel i : Nat} (hi : i < d.nodes.size)
    (hfuel : d.nodes.size ≤ fuel + i) : (d.metFrom fuel i).Nodup := by
  refine h.pairwise_metFrom ?_ ?_ hi hfuel
  · intro i k hlt _
    exact Nat.ne_of_lt hlt
  · rintro i a b k l ha hb hab hak hbl rfl
    exact Nat.ne_of_lt hab (h.child_unique ha hb hak hbl)

/-- The elements that a walk meets are those among the nodes that it meets. -/
theorem IsTree.filterMap_node?_walkFrom (h : d.IsTree) (fuel i : Nat) :
    (d.walkFrom (fun _ => false) fuel i).filterMap Visit.node? =
      (d.metFrom fuel i).filter fun k => (d.bindingNode? k).isSome := by
  induction fuel generalizing i with
  | zero => rfl
  | succ fuel ih =>
    cases hn : d.nodes[i]? with
    | none => rw [metFrom, walkFrom, hn]; rfl
    | some n =>
      have hown : (d.bindingNode? n.id).isSome = n.bindingNode?.isSome := by
        rw [h.id_eq i n hn, bindingNode?, hn]
        rfl
      rw [walkFrom_succ hn, metFrom_succ hn, List.filterMap_append, filterMap_node?_visitsOf,
        List.filterMap_flatMap, List.filter_cons, List.filter_flatMap, hown]
      simp only [ih]
      split <;> rfl

theorem IsTree.bindingNodes_eq (h : d.IsTree) : d.bindingNodes =
    (d.metFrom d.nodes.size root).filter fun k => (d.bindingNode? k).isSome := by
  rw [← h.filterMap_node?_walkFrom]
  unfold bindingNodes walk
  congr 1

theorem IsTree.mem_bindingNodes (h : d.IsTree) {n : Nat} :
    n ∈ d.bindingNodes ↔ (d.bindingNode? n).isSome := by
  rw [h.bindingNodes_eq, List.mem_filter, h.mem_metFrom h.size_pos (Nat.le_add_right _ _)]
  refine ⟨fun hn => hn.2, fun hn => ⟨h.below_root ?_, hn⟩⟩
  obtain ⟨content, hc⟩ := Option.isSome_iff_exists.mp hn
  exact lt_size_of_kind? (bindingNode?_eq_some.mp hc)

theorem IsTree.nodup_bindingNodes (h : d.IsTree) : d.bindingNodes.Nodup := by
  rw [h.bindingNodes_eq]
  exact (h.nodup_metFrom h.size_pos (Nat.le_add_right _ _)).filter _

/-! ### Levels -/

/-- A node and those around it, the innermost first, over at most `fuel` levels. -/
def ancestryFrom (d : Document) : Nat → NodeId → List NodeId
  | 0, _ => []
  | fuel + 1, id =>
    id :: match d.parent? id with
      | some p => d.ancestryFrom fuel p
      | none => []

/-- A node and those around it, the innermost first. -/
def ancestry (d : Document) (id : NodeId) : List NodeId := d.ancestryFrom d.nodes.size id

/-- Whether a node is where a view model begins: the root, or a later view model. -/
def isViewmodel (d : Document) (id : NodeId) : Bool :=
  match d.kind? id with
  | some (.type content) => content.isRoot
  | _ => false

/-- The number of elements with bindings on the way from the nearest view model around a node
down to the node, itself included. -/
def level (d : Document) (id : NodeId) : Nat :=
  ((d.ancestry id).takeWhile fun n => !d.isViewmodel n).countP fun n => (d.bindingNode? n).isSome

/-- No way up is longer than the number of the node it starts from. -/
theorem IsTree.ancestryFrom_eq (h : d.IsTree) {i fuel fuel' : Nat} (hf : i < fuel)
    (hf' : i < fuel') : d.ancestryFrom fuel i = d.ancestryFrom fuel' i := by
  induction i using Nat.strong_induction_on generalizing fuel fuel' with
  | _ i ih =>
    cases fuel with
    | zero => omega
    | succ fuel =>
      cases fuel' with
      | zero => omega
      | succ fuel' =>
        rw [ancestryFrom, ancestryFrom]
        cases hp : d.parent? i with
        | none => rfl
        | some p =>
          have hlt := h.lt_of_parent? hp
          exact congrArg _ (ih p hlt (by omega) (by omega))

theorem IsTree.ancestry_eq (h : d.IsTree) {i p : Nat} (hp : d.parent? i = some p) :
    d.ancestry i = i :: d.ancestry p := by
  have hi := lt_size_of_parent? hp
  have hlt := h.lt_of_parent? hp
  unfold ancestry
  rw [h.ancestryFrom_eq hi (Nat.lt_succ_of_lt hi), ancestryFrom, hp]

theorem ancestry_eq_cons {i : Nat} (hi : i < d.nodes.size) : ∃ rest, d.ancestry i = i :: rest := by
  unfold ancestry
  cases hsize : d.nodes.size with
  | zero => omega
  | succ fuel => exact ⟨_, rfl⟩

theorem level_root {i : Nat} (hi : d.isViewmodel i = true) : d.level i = 0 := by
  have hlt : i < d.nodes.size := by
    by_contra hge
    rw [isViewmodel, kind?, Array.getElem?_eq_none (Nat.le_of_not_lt hge)] at hi
    cases hi
  obtain ⟨rest, hrest⟩ := ancestry_eq_cons hlt
  rw [level, hrest, List.takeWhile_cons_of_neg (by simp [hi])]
  rfl

theorem IsTree.level_element (h : d.IsTree) {i p : Nat} (hi : (d.bindingNode? i).isSome)
    (hp : d.parent? i = some p) : d.level i = d.level p + 1 := by
  have hnot : d.isViewmodel i = false := by
    obtain ⟨content, hc⟩ := Option.isSome_iff_exists.mp hi
    rw [isViewmodel, bindingNode?_eq_some.mp hc]
  rw [level, h.ancestry_eq hp, List.takeWhile_cons_of_pos (by simp [hnot]),
    List.countP_cons_of_pos (p := fun n => (d.bindingNode? n).isSome) hi]
  rfl

theorem IsTree.level_directive (h : d.IsTree) {i p : Nat} {content : TypeNode}
    (hi : d.kind? i = some (.type content)) (hroot : content.isRoot = false)
    (hp : d.parent? i = some p) : d.level i = d.level p := by
  have hnot : d.isViewmodel i = false := by
    rw [isViewmodel, hi]
    exact hroot
  have hnone : d.bindingNode? i = none := by
    cases hb : d.bindingNode? i with
    | none => rfl
    | some c =>
      rw [bindingNode?_eq_some, hi] at hb
      cases hb
  rw [level, h.ancestry_eq hp, List.takeWhile_cons_of_pos (by simp [hnot]),
    List.countP_cons_of_neg (by simp [hnone])]
  rfl

/-- Levels leave out no number: up to the level of a node, every number is the level of some
element. -/
theorem IsTree.exists_level (h : d.IsTree) {i j : Nat} (hi : i < d.nodes.size) (hj : 0 < j)
    (hle : j ≤ d.level i) : ∃ n, (d.bindingNode? n).isSome ∧ d.level n = j := by
  -- on the way up a level drops by one at each element, and not at all elsewhere
  induction i using Nat.strong_induction_on with
  | _ i ih =>
    have hroot : i ≠ root := by
      rintro rfl
      obtain ⟨content, hkind, hisRoot⟩ := h.root_kind
      rw [level_root (by rw [isViewmodel, hkind]; exact hisRoot)] at hle
      omega
    obtain ⟨p, hp, hlt⟩ := h.parent_lt i hi hroot
    have hpsize : p < d.nodes.size := Nat.lt_trans hlt hi
    obtain ⟨n, hn⟩ := exists_node hi
    have hkind : d.kind? i = some n.kind := by rw [kind?, hn]; rfl
    cases hk : n.kind with
    | binding content =>
      rw [hk] at hkind
      have hsome : (d.bindingNode? i).isSome := by rw [bindingNode?_eq_some.mpr hkind]; rfl
      rw [h.level_element hsome hp] at hle
      by_cases heq : j = d.level p + 1
      · exact ⟨i, hsome, by rw [h.level_element hsome hp, heq]⟩
      · exact ih p hlt hpsize (by omega)
    | type content =>
      rw [hk] at hkind
      cases hisRoot : content.isRoot with
      | true =>
        rw [level_root (by rw [isViewmodel, hkind]; exact hisRoot)] at hle
        omega
      | false =>
        rw [h.level_directive hkind hisRoot hp] at hle
        exact ih p hlt hpsize hle

/-- A depth counts the elements on the whole way to the root. -/
theorem depthFrom_eq (d : Document) (fuel : Nat) (i : Nat) :
    d.depthFrom fuel i = (d.ancestryFrom fuel i).countP fun n => (d.bindingNode? n).isSome := by
  induction fuel generalizing i with
  | zero => rfl
  | succ fuel ih =>
    rw [depthFrom, ancestryFrom, List.countP_cons]
    cases d.parent? i with
    | none => simp
    | some p =>
      simp only [ih]
      omega

theorem level_le_bindingDepth (d : Document) (i : Nat) : d.level i ≤ d.bindingDepth i := by
  rw [bindingDepth, depthFrom_eq]
  exact (List.takeWhile_sublist _).countP_le

end Document

end ViewLint
