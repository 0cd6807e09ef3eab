import Mathlib.Data.List.Sort
import ViewLint.Proofs.Document.Provenance
import ViewLint.Proofs.Document.Walk

/-!
# Document order

A node is always added below the node that was added last, or below one around it.  So the numbers
of the nodes are their places in a walk from the root, and what stands below a node is an unbroken
row of numbers.  The bindings of an element are added right behind its node, so that their numbers
follow the walk too.

## Main definitions

* `Document.Preordered` — every node is below one around the node before it.
* `Machine.Under`, `Machine.Nested` — the same for the logs of the machine, with the scopes on its
  stack and the bindings.
* `Document.InDocumentOrder` — numbers, parents, children and walks agree.

## Main results

* `Document.Preordered.metFrom_root` — a walk meets the nodes in the order of their numbers.
* `Machine.Nested.step`, `Machine.nested_run` — one token and all tokens keep the logs nested.
* `build_in_document_order` — every document that building makes is in document order.
-/

namespace ViewLint

open Markup

namespace Document

variable {d : Document}

/-! ### Walks in the order of the numbers -/

/-- Every node is below the node before it, or below one around that. -/
def Preordered (d : Document) : Prop := ∀ i p : Nat, d.parent? (i + 1) = some p → d.Below p i

/-- What stands below a node is an unbroken row of numbers. -/
theorem Preordered.below_of_le (hp : d.Preordered) {a j k : Nat} (hak : d.Below a k)
    (haj : a ≤ j) (hjk : j ≤ k) : d.Below a j := by
  induction k with
  | zero =>
    rw [Nat.le_zero.mp hjk]
    exact hak
  | succ k ih =>
    rcases Nat.eq_or_lt_of_le hjk with rfl | hlt
    · exact hak
    · have hbefore : d.Below a k := by
        cases hak with
        | self => omega
        | step hparent hap => exact hap.trans (hp k _ hparent)
      exact ih hbefore (Nat.le_of_lt_succ hlt)

/-- Of two nodes below different children of a node, the one below the smaller child has the smaller
number. -/
theorem Preordered.lt_across (hp : d.Preordered) (h : d.IsTree) {i a b k l : Nat}
    (ha : d.parent? a = some i) (hb : d.parent? b = some i) (hab : a < b) (hak : d.Below a k)
    (hbl : d.Below b l) : k < l := by
  by_contra hle
  -- then the larger child would lie in the row of the smaller one
  have hbelow : d.Below a b :=
    hp.below_of_le hak (Nat.le_of_lt hab) (Nat.le_trans (hbl.le h) (Nat.le_of_not_lt hle))
  exact Nat.ne_of_lt hab (h.child_unique ha hb hbelow .self)

/-- A walk from the root meets all nodes, in the order of their numbers. -/
theorem Preordered.metFrom_root (hp : d.Preordered) (h : d.IsTree) :
    d.metFrom d.nodes.size root = List.range d.nodes.size := by
  refine List.Pairwise.eq_of_mem_iff ?_ List.pairwise_lt_range ?_
  · exact h.pairwise_metFrom (fun _ _ hlt _ => hlt)
      (fun _ _ _ _ _ ha hb hab hak hbl => hp.lt_across h ha hb hab hak hbl) h.size_pos
      (Nat.le_add_right _ _)
  · intro k
    rw [h.mem_metFrom h.size_pos (Nat.le_add_right _ _), List.mem_range]
    refine ⟨?_, h.below_root⟩
    rintro (_ | ⟨hparent, -⟩)
    · exact h.size_pos
    · exact lt_size_of_parent? hparent

theorem Preordered.bindingNodes_eq (hp : d.Preordered) (h : d.IsTree) :
    d.bindingNodes = (List.range d.nodes.size).filter fun k => (d.bindingNode? k).isSome := by
  rw [h.bindingNodes_eq, hp.metFrom_root h]

/-- The children of a node are the nodes that name it as their parent, in the order of their
numbers. -/
theorem IsTree.children_eq (h : d.IsTree) {i : Nat} {n : Node} (hn : d.nodes[i]? = some n) :
    n.children = (List.range d.nodes.size).filter fun k => d.parent? k = some i := by
  refine (h.children_increasing i n hn).eq_of_mem_iff (List.pairwise_lt_range.filter _) ?_
  intro k
  rw [h.mem_children i n hn, List.mem_filter, List.mem_range, decide_eq_true_eq]
  exact ⟨fun hk => ⟨lt_size_of_parent? hk, hk⟩, fun hk => hk.2⟩

end Document

/-! ### The logs of the machine -/

/-- The bindings of a node, if it is an element. -/
def NodeKind.bindings : NodeKind → List BindingId
  | .binding content => content.bindings
  | .type _ => []

namespace Machine

/-- `Under nodes a n` says that the node `n` of a log is `a` or stands below it. -/
inductive Under (nodes : List (NodeId × NodeKind)) (a : NodeId) : NodeId → Prop where
  | self : Under nodes a a
  | step {i : Nat} {p : NodeId} {kind : NodeKind} :
    nodes[i]? = some (p, kind) → Under nodes a p → Under nodes a (i + 1)

variable {nodes nodes' : List (NodeId × NodeKind)} {a b n : NodeId} {m : Machine}

theorem Under.grow (h : Under nodes a n) (hnodes : nodes <+: nodes') : Under nodes' a n := by
  induction h with
  | self => exact .self
  | step hi _ ih =>
    have hi' := getElem?_of_prefix hnodes hi
    exact .step hi' ih

theorem Under.trans (h : Under nodes a b) (h' : Under nodes b n) : Under nodes a n := by
  induction h' with
  | self => exact h
  | step hi _ ih => exact .step hi ih

/-- A node that is added below another one stands below all that is around that one. -/
theorem Under.concat (h : Under nodes a b) (kind : NodeKind) :
    Under (nodes ++ [(b, kind)]) a (nodes.length + 1) :=
  .step List.getElem?_concat_length (h.grow (List.prefix_append _ _))

theorem Under.below_document (h : Under m.nodes a n) (file text : String) (dialect : Dialect) :
    (m.document file text dialect).Below a n := by
  induction h with
  | self => exact .self
  | step hi _ ih =>
    refine .step ?_ ih
    rw [Document.parent?, getElem?_nodes_succ, hi]
    rfl

/-- A binding nests under one that comes before it, and that stands on a node around the node of the
binding. -/
def NestsUnder (m : Machine) (k : Nat) (x : Placed) (c : BindingId) : Prop :=
  c < k ∧ ∃ y i p kind, m.bindings[c]? = some y ∧ x.node = i + 1 ∧ m.nodes[i]? = some (p, kind) ∧
    Under m.nodes y.node p

/-- The active node of the innermost scope is the last node or around it, and the active nodes of
the other scopes are around each other.  The binding of a scope stands on the active node or on one
around it. -/
structure Nested (m : Machine) : Prop where
  nodes : ∀ i p kind, m.nodes[i]? = some (p, kind) → Under m.nodes p i
  last : Under m.nodes m.top.active m.nodes.length
  stack : (m.top :: m.below).Pairwise fun inner outer => Under m.nodes outer.active inner.active
  contexts : ∀ scope ∈ m.top :: m.below, ∀ c, scope.context = some c →
    ∃ y, m.bindings[c]? = some y ∧ Under m.nodes y.node scope.active
  bindings : ∀ k x c, m.bindings[k]? = some x → x.parent = some c → m.NestsUnder k x c
  rows : ∀ n ∈ m.nodes, ∃ first, n.2.bindings = List.range' first n.2.bindings.length
  numbers : m.nodes.flatMap (·.2.bindings) = List.range m.bindings.length

theorem nested_initial : initial.Nested := by
  refine ⟨?_, .self, List.pairwise_singleton _ _, ?_, ?_, ?_, rfl⟩
  · intro i p kind hi
    cases hi
  · intro scope hscope c hc
    rw [List.mem_singleton.mp hscope] at hc
    cases hc
  · intro k x c hx
    cases hx
  · intro n hn
    cases hn

theorem Nested.log (h : m.Nested) (content : Directive) : (m.log content).Nested :=
  ⟨h.nodes, h.last, h.stack, h.contexts, h.bindings, h.rows, h.numbers⟩

theorem Nested.report (h : m.Nested) (ds : List Diagnostic) : (m.report ds).Nested :=
  ⟨h.nodes, h.last, h.stack, h.contexts, h.bindings, h.rows, h.numbers⟩

/-- The stack can be changed to scopes of which the same holds. -/
theorem Nested.setStack (h : m.Nested) {top : Scope} {below : List Scope}
    (hlast : Under m.nodes top.active m.nodes.length)
    (hstack : (top :: below).Pairwise fun inner outer => Under m.nodes outer.active inner.active)
    (hcontexts : ∀ scope ∈ top :: below, ∀ c, scope.context = some c →
      ∃ y, m.bindings[c]? = some y ∧ Under m.nodes y.node scope.active) :
    { m with top, below }.Nested :=
  ⟨h.nodes, hlast, hstack, hcontexts, h.bindings, h.rows, h.numbers⟩

/-- A node is added below the active one, together with its bindings. -/
theorem Nested.addNode (h : m.Nested) (kind : NodeKind) (found : List ParsedBinding)
    (hkind : kind.bindings = List.range' m.bindings.length found.length) :
    ((m.addNode m.top.active kind).place
      (found.map fun p => ⟨p, m.nodes.length + 1, m.top.context⟩)).Nested := by
  have hnodes : m.nodes <+: m.nodes ++ [(m.top.active, kind)] := List.prefix_append _ _
  have hbindings : m.bindings <+: m.bindings ++
      found.map fun p => ⟨p, m.nodes.length + 1, m.top.context⟩ := List.prefix_append _ _
  constructor <;> dsimp only [Machine.addNode, place]
  · intro i p kind' hi
    by_cases hlast : i = m.nodes.length
    · rw [hlast, List.getElem?_concat_length] at hi
      cases hi
      rw [hlast]
      exact h.last.grow hnodes
    · rw [getElem?_concat_of_ne hlast] at hi
      exact (h.nodes i p kind' hi).grow hnodes
  · rw [List.length_append]
    exact .concat .self kind
  · exact h.stack.imp fun hunder => hunder.grow hnodes
  · intro scope hscope c hc
    obtain ⟨y, hy, hunder⟩ := h.contexts scope hscope c hc
    exact ⟨y, getElem?_of_prefix hbindings hy, hunder.grow hnodes⟩
  · intro k x c hx hc
    by_cases hlt : k < m.bindings.length
    · rw [List.getElem?_append_left hlt] at hx
      obtain ⟨hck, y, i, p, kind', hy, hi, hp, hunder⟩ := h.bindings k x c hx hc
      exact ⟨hck, y, i, p, kind', getElem?_of_prefix hbindings hy, hi,
        getElem?_of_prefix hnodes hp, hunder.grow hnodes⟩
    · -- a new binding nests under the one of the scope around its node
      rw [List.getElem?_append_right (Nat.le_of_not_lt hlt), List.getElem?_map] at hx
      obtain ⟨parsed, -, rfl⟩ := Option.map_eq_some_iff.mp hx
      obtain ⟨y, hy, hunder⟩ := h.contexts m.top (List.mem_cons_self ..) c hc
      have hck := (List.getElem?_eq_some_iff.mp hy).1
      exact ⟨Nat.lt_of_lt_of_le hck (Nat.le_of_not_lt hlt), y, m.nodes.length, m.top.active, kind,
        getElem?_of_prefix hbindings hy, rfl, List.getElem?_concat_length, hunder.grow hnodes⟩
  · intro n hn
    rcases List.mem_append.mp hn with hn | hn
    · exact h.rows n hn
    · rw [List.mem_singleton.mp hn]
      exact ⟨m.bindings.length, by rw [hkind, List.length_range']⟩
  · have happend : List.range' 0 m.bindings.length ++
        List.range' (0 + m.bindings.length) found.length =
          List.range' 0 (m.bindings.length + found.length) := List.range'_append_1
    rw [Nat.zero_add] at happend
    rw [List.flatMap_append, h.numbers, List.flatMap_singleton, hkind, List.length_append,
      List.length_map, List.range_eq_range', List.range_eq_range', happend]

/-- A node that replaces the context becomes active. -/
theorem Nested.openType (h : m.Nested) (content : TypeNode) : (m.openType content).Nested := by
  have hadd := h.addNode (.type content) [] rfl
  have hnodes : m.nodes <+: m.nodes ++ [(m.top.active, .type content)] := List.prefix_append _ _
  have hstack := List.pairwise_cons.mp h.stack
  have hplace : (m.addNode m.top.active (.type content)).place
      (([] : List ParsedBinding).map fun p => ⟨p, m.nodes.length + 1, m.top.context⟩) =
        m.addNode m.top.active (.type content) := by
    simp [place]
  rw [hplace] at hadd
  refine hadd.setStack ?_ (List.pairwise_cons.mpr ⟨?_, ?_⟩) ?_
  · dsimp only [Machine.addNode]
    rw [List.length_append]
    exact .self
  · intro outer houter
    exact (hstack.1 outer houter).concat (.type content)
  · exact hstack.2.imp fun hunder => hunder.grow hnodes
  · rw [List.forall_mem_cons]
    constructor
    · intro c hc
      obtain ⟨y, hy, hunder⟩ := h.contexts m.top (List.mem_cons_self ..) c hc
      exact ⟨y, hy, hunder.concat (.type content)⟩
    · intro scope hscope
      exact hadd.contexts scope (List.mem_cons_of_mem _ hscope)

/-! ### One token -/

theorem Nested.directive (file : String) (h : m.Nested) (content : Directive) :
    (m.directive file content).Nested := by
  cases content with
  | imports _ => exact h.log _
  | lint _ _ _ => exact h.log _
  | context location type => exact (h.log _).openType _
  | viewmodel location type =>
    rw [Machine.directive]
    split
    · exact h.log _
    · exact ((h.log _).report _).openType _

/-- The scope of some content goes on from the stack around it. -/
def Enters (m : Machine) (scope : Scope) : Prop :=
  Under m.nodes m.top.active scope.active ∧ Under m.nodes scope.active m.nodes.length ∧
    ∀ c, scope.context = some c → ∃ y, m.bindings[c]? = some y ∧ Under m.nodes y.node scope.active

theorem Nested.enter (h : m.Nested) {scope : Scope} (hscope : m.Enters scope) :
    { m with top := scope, below := m.top :: m.below }.Nested := by
  obtain ⟨htop, hlast, hcontext⟩ := hscope
  have hstack := List.pairwise_cons.mp h.stack
  refine h.setStack hlast (List.pairwise_cons.mpr ⟨?_, h.stack⟩) ?_
  · rw [List.forall_mem_cons]
    exact ⟨htop, fun outer houter => (hstack.1 outer houter).trans htop⟩
  · rw [List.forall_mem_cons]
    exact ⟨hcontext, h.contexts⟩

/-- An element with bindings is added below the active node, and its content is entered with the
first of its bindings that can open a context. -/
theorem Nested.element [ScriptParser] (file : String) (registry : Handlers) (h : m.Nested)
    (e : Element) :
    (m.element file registry e).2.Nested ∧
      (m.element file registry e).2.Enters (m.element file registry e).1 := by
  rw [Machine.element]
  generalize readable file e.bindings = found
  split
  · exact ⟨h.report _, .self, h.last, h.contexts m.top (List.mem_cons_self ..)⟩
  · refine ⟨(h.report _).addNode _ found rfl, ?_, ?_, ?_⟩
    · exact .concat .self _
    · dsimp only [contentScope, place, Machine.addNode, Machine.report]
      rw [List.length_append]
      exact .self
    · intro c hc
      rw [contentScope] at hc
      dsimp only [place, Machine.addNode, Machine.report] at hc ⊢
      cases hgenerating : found.findIdx? fun p =>
          (m.handlers registry).isGenerating p.handler.value with
      | none =>
        rw [hgenerating] at hc
        obtain ⟨y, hy, hunder⟩ := h.contexts m.top (List.mem_cons_self ..) c hc
        exact ⟨y, getElem?_of_prefix (List.prefix_append _ _) hy, hunder.concat _⟩
      | some j =>
        rw [hgenerating] at hc
        cases hc
        have hj : j < found.length := (List.findIdx?_eq_some_iff_getElem.mp hgenerating).1
        rw [List.getElem?_append_right (Nat.le_add_right _ _), Nat.add_sub_cancel_left,
          List.getElem?_map, List.getElem?_eq_getElem hj]
        exact ⟨_, rfl, .self⟩

theorem Nested.step [ScriptParser] (file : String) (registry : Handlers) (h : m.Nested)
    (t : Token) :
    (m.step file registry t).Nested := by
  cases t with
  | directive content => exact h.directive file content
  | element e =>
    obtain ⟨helement, henters⟩ := h.element file registry e
    have hkept := stack_element file registry m e
    rw [Machine.step]
    split
    · have hentered := helement.enter henters
      rw [hkept.1, hkept.2] at hentered
      exact hentered
    · exact helement
    · split
      · exact h
      · next scope below hbelow =>
        -- the scope around the innermost one is around the last node too
        have hstack := h.stack
        have hcontexts := h.contexts
        rw [hbelow, List.pairwise_cons] at hstack
        rw [hbelow] at hcontexts
        exact h.setStack ((hstack.1 scope (List.mem_cons_self ..)).trans h.last) hstack.2
          fun s hs => hcontexts s (List.mem_cons_of_mem _ hs)

theorem nested_run [ScriptParser] (file : String) (registry : Handlers) (ts : List Token) :
    (run file registry ts).Nested :=
  List.foldlRecOn ts (Machine.step file registry) (motive := Nested) nested_initial
    fun _ h t _ => h.step file registry t

/-! ### The document of the logs -/

variable (file text : String) (dialect : Dialect)

theorem bindingsOf_zero (m : Machine) : (m.document file text dialect).bindingsOf 0 = [] := by
  rw [Document.bindingsOf, Document.bindingNode?, getElem?_nodes_zero]
  rfl

theorem bindingsOf_succ (m : Machine) (i : Nat) :
    (m.document file text dialect).bindingsOf (i + 1) =
      (m.nodes[i]?.map (·.2.bindings)).getD [] := by
  rw [Document.bindingsOf, Document.bindingNode?, getElem?_nodes_succ]
  cases hi : m.nodes[i]? with
  | none => rfl
  | some n =>
    obtain ⟨p, kind⟩ := n
    cases kind <;> rfl

theorem Nested.preordered (h : m.Nested) : (m.document file text dialect).Preordered := by
  intro i p hp
  rw [Document.parent?, getElem?_nodes_succ] at hp
  cases hi : m.nodes[i]? with
  | none =>
    rw [hi] at hp
    cases hp
  | some n =>
    rw [hi] at hp
    cases hp
    exact (h.nodes i n.1 n.2 hi).below_document file text dialect

/-- The bindings of all nodes are numbered one after the other. -/
theorem Nested.flatMap_bindingsOf (h : m.Nested) :
    (List.range (m.document file text dialect).nodes.size).flatMap
        (m.document file text dialect).bindingsOf =
      List.range (m.document file text dialect).bindings.size := by
  have hmap : (List.range m.nodes.length).map (fun i =>
      (m.document file text dialect).bindingsOf (i + 1)) = m.nodes.map (·.2.bindings) := by
    refine List.ext_getElem (by simp) ?_
    intro i hi hi'
    have hlt : i < m.nodes.length := by simpa using hi'
    simp [bindingsOf_succ, List.getElem?_eq_getElem hlt]
  rw [size_nodes, size_bindings, ← h.numbers, List.range_succ_eq_map, List.flatMap_cons,
    bindingsOf_zero, List.nil_append, List.flatMap_map, List.flatMap_def, List.flatMap_def, ← hmap]

end Machine

namespace Document

/-- The numbers of nodes and bindings are their places in a walk, and the nodes, the elements and
their bindings agree on how they stand to each other. -/
structure InDocumentOrder (d : Document) : Prop where
  /-- Nodes bear the numbers of their places, and the first one is the root. -/
  id_eq : ∀ (i : Nat) (n : Node), d.nodes[i]? = some n → n.id = i
  root_parent : root < d.nodes.size ∧ d.parent? root = none
  parent_lt : ∀ i : Nat, i < d.nodes.size → i ≠ root → ∃ p : Nat, d.parent? i = some p ∧ p < i
  /-- The children of a node are the nodes that name it as their parent, in increasing order. -/
  children_eq : ∀ (i : Nat) (n : Node), d.nodes[i]? = some n →
    n.children = (List.range d.nodes.size).filter fun k => d.parent? k = some i
  /-- A walk from the root meets every node once, in increasing order. -/
  walk_eq : (d.walk fun _ => false).filterMap Visit.id? = List.range d.nodes.size
  bindingNodes_eq : d.bindingNodes =
    (List.range d.nodes.size).filter fun k => (d.bindingNode? k).isSome
  /-- Bindings bear the numbers of their places, and are listed by their own node only. -/
  owner : ∀ (k : Nat) (b : Binding), d.bindings[k]? = some b →
    b.id = k ∧ ∀ i, k ∈ d.bindingsOf i ↔ i = b.node
  /-- An element lists one or more bindings, with consecutive numbers. -/
  consecutive : ∀ i ∈ d.bindingNodes, ∃ first count,
    d.bindingsOf i = List.range' first (count + 1)
  /-- Along a walk the bindings are numbered one after the other. -/
  numbered : d.bindingNodes.flatMap d.bindingsOf = List.range d.bindings.size
  /-- A binding nests under one with a smaller number, on a node around its own. -/
  nesting : ∀ (k p : Nat) (b : Binding), d.bindings[k]? = some b → b.parent = some p →
    p < k ∧ ∃ outer, d.bindings[p]? = some outer ∧ k ∈ outer.children ∧ outer.node ≠ b.node ∧
      d.Below outer.node b.node
  /-- A binding lists just those that nest under it. -/
  nested_iff : ∀ (p : Nat) (outer : Binding), d.bindings[p]? = some outer →
    ∀ k, k ∈ outer.children ↔ ∃ b, d.bindings[k]? = some b ∧ b.parent = some p

/-- Nodes without bindings count for nothing when bindings are collected. -/
theorem flatMap_bindingsOf_filter (d : Document) (ks : List Nat) :
    (ks.filter fun k => (d.bindingNode? k).isSome).flatMap d.bindingsOf =
      ks.flatMap d.bindingsOf := by
  induction ks with
  | nil => rfl
  | cons k ks ih =>
    cases hk : d.bindingNode? k with
    | some content =>
      rw [List.filter_cons_of_pos (by simp [hk]), List.flatMap_cons, List.flatMap_cons, ih]
    | none =>
      have hnone : d.bindingsOf k = [] := by simp [bindingsOf, hk]
      rw [List.filter_cons_of_neg (by simp [hk]), List.flatMap_cons, hnone, ih, List.nil_append]

end Document

section

variable [ScriptParser] {file text : String} {tokenized : Tokenized} {handlers : Handlers}
  {d : Document}

theorem preordered_of_build (hd : (build file text tokenized handlers).document = some d) :
    d.Preordered := by
  rw [document_eq_machine hd]
  exact (Machine.nested_run file handlers tokenized.tokens).preordered _ _ _

/-- The bindings of an element have consecutive numbers. -/
theorem bindingsOf_of_build (hd : (build file text tokenized handlers).document = some d)
    (i : Nat) : ∃ first, d.bindingsOf i = List.range' first (d.bindingsOf i).length := by
  have hnested := Machine.nested_run file handlers tokenized.tokens
  rw [document_eq_machine hd]
  cases i with
  | zero => exact ⟨0, by rw [Machine.bindingsOf_zero]; rfl⟩
  | succ i =>
    rw [Machine.bindingsOf_succ]
    cases hi : (Machine.run file handlers tokenized.tokens).nodes[i]? with
    | none => exact ⟨0, rfl⟩
    | some n => exact hnested.rows n (List.mem_of_getElem? hi)

/-- A binding lists just those that nest under it. -/
theorem nested_iff_of_build (hd : (build file text tokenized handlers).document = some d)
    {p : Nat} {outer : Binding} (hp : d.bindings[p]? = some outer) {k : Nat} :
    k ∈ outer.children ↔ ∃ b, d.bindings[k]? = some b ∧ b.parent = some p := by
  rw [document_eq_machine hd] at hp ⊢
  rw [Machine.getElem?_bindings] at hp ⊢
  obtain ⟨y, hy, rfl⟩ := Option.map_eq_some_iff.mp hp
  dsimp only [Machine.nestedUnder]
  rw [List.mem_findIdxs_iff_exists_getElem_pos]
  constructor
  · rintro ⟨hk, hparent⟩
    exact ⟨_, by rw [List.getElem?_eq_getElem hk]; rfl, eq_of_beq hparent⟩
  · rintro ⟨b, hb, hparent⟩
    obtain ⟨x, hx, rfl⟩ := Option.map_eq_some_iff.mp hb
    obtain ⟨hk, rfl⟩ := List.getElem?_eq_some_iff.mp hx
    exact ⟨hk, beq_iff_eq.mpr hparent⟩

/-- A binding nests under one that comes before it, on a node around its own. -/
theorem nesting_of_build (hd : (build file text tokenized handlers).document = some d)
    {k p : Nat} {b : Binding} (hb : d.bindings[k]? = some b) (hp : b.parent = some p) :
    p < k ∧ ∃ outer, d.bindings[p]? = some outer ∧ outer.node ≠ b.node ∧
      d.Below outer.node b.node := by
  have hdocument := document_eq_machine hd
  have htree := (build_wellFormed hd).toIsTree
  have hb' := hb
  rw [hdocument, Machine.getElem?_bindings] at hb'
  obtain ⟨x, hx, rfl⟩ := Option.map_eq_some_iff.mp hb'
  obtain ⟨hlt, y, i, q, kind, hy, hnode, hi, hunder⟩ :=
    (Machine.nested_run file handlers tokenized.tokens).bindings k x p hx hp
  have hparent : d.parent? x.node = some q := by
    rw [hdocument, hnode, Document.parent?, Machine.getElem?_nodes_succ, hi]
    rfl
  have hbelow : d.Below y.node q := by
    rw [hdocument]
    exact hunder.below_document file text tokenized.dialect
  have houter := Machine.getElem?_bindings file text tokenized.dialect
    (Machine.run file handlers tokenized.tokens) p
  rw [← hdocument, hy] at houter
  refine ⟨hlt, _, houter, ?_, .step hparent hbelow⟩
  have hbefore := htree.lt_of_parent? hparent
  exact Nat.ne_of_lt (Nat.lt_of_le_of_lt (hbelow.le htree) hbefore)

end

/-- **A document is a tree in document order.**  Whatever tokens building accepts, the numbers of
the nodes are their places in a walk from the root; elements own consecutive bindings, whose numbers
follow the walk, and bindings nest under bindings of elements around their own. -/
theorem build_in_document_order [ScriptParser] {file text : String} {tokenized : Tokenized}
    {handlers : Handlers} {d : Document}
    (hd : (build file text tokenized handlers).document = some d) :
    d.InDocumentOrder := by
  have hwf := build_wellFormed hd
  have htree := hwf.toIsTree
  have hpre := preordered_of_build hd
  refine ⟨htree.id_eq, ⟨htree.size_pos, htree.root_parent⟩, htree.parent_lt,
    fun _ _ hn => htree.children_eq hn, hpre.metFrom_root htree, hpre.bindingNodes_eq htree, ?_, ?_,
    ?_, ?_, fun _ _ hp _ => nested_iff_of_build hd hp⟩
  · intro k b hb
    obtain ⟨hid, hmem⟩ := mem_bindingsOf_of_build hd hb
    refine ⟨hid, fun i => ⟨fun hi => hwf.node_unique hi hmem, ?_⟩⟩
    rintro rfl
    exact hmem
  · intro i hi
    obtain ⟨content, hcontent⟩ := Option.isSome_iff_exists.mp (htree.mem_bindingNodes.mp hi)
    have hkind := Document.bindingNode?_eq_some.mp hcontent
    have hne : d.bindingsOf i ≠ [] := by
      rw [Document.bindingsOf_eq hkind]
      exact hwf.bindings_ne i content hkind
    obtain ⟨first, hfirst⟩ := bindingsOf_of_build hd i
    refine ⟨first, (d.bindingsOf i).length - 1, ?_⟩
    rw [Nat.sub_add_cancel (List.length_pos_iff.mpr hne)]
    exact hfirst
  · rw [hpre.bindingNodes_eq htree, Document.flatMap_bindingsOf_filter, document_eq_machine hd]
    exact (Machine.nested_run file handlers tokenized.tokens).flatMap_bindingsOf _ _ _
  · intro k p b hb hp
    obtain ⟨hlt, outer, houter, hne, hbelow⟩ := nesting_of_build hd hb hp
    exact ⟨hlt, outer, houter, (nested_iff_of_build hd houter).mpr ⟨b, hb, hp⟩, hne, hbelow⟩

theorem build_in_document_order_scopedView :
    ∃ d, (build "view.html" "" scopedView (.ofConfigured [])).document = some d ∧
      d.nodes.toList.map (·.children) = [[1, 4], [2], [3], [], [5], []] ∧
      d.bindings.toList.map (·.children) = [[1], [], []] ∧ d.InDocumentOrder := by
  have hbuilt : ((build "view.html" "" scopedView (.ofConfigured [])).document.map fun d =>
      (d.nodes.toList.map (·.children), d.bindings.toList.map (·.children))) =
        some ([[1, 4], [2], [3], [], [5], []], [[1], [], []]) := by
    decide +kernel
  obtain ⟨d, hd, hchildren⟩ := Option.map_eq_some_iff.mp hbuilt
  obtain ⟨hnodes, hbindings⟩ := Prod.mk.inj hchildren
  exact ⟨d, hd, hnodes, hbindings, build_in_document_order hd⟩

end ViewLint
