import ViewLint.Proofs.Document.Tree

/-!
# A machine that builds documents

The tree of a view can be told token by token, with one stack: a scope for every open element,
which says the node that is active in its content and the binding that bindings of its content
nest under.  The machine here only ever writes at the end of its logs.  Children, handlers, lint
states and the type of the root are not kept but read off the logs, so that nothing has to be
changed once it has been written.

## Main definitions

* `Scope`, `Machine` — the stack and the logs.
* `Machine.step`, `Machine.run` — the effect of one token and of all tokens.
* `Machine.document`, `Machine.diagnostics` — the document and the diagnostics of the logs.
* `Machine.Bounded` — the stack and the logs refer to what is in the logs.

## Main results

* `Machine.document_addNode`, `Machine.document_place` — what is added to the logs is added to
  their document.
-/

namespace ViewLint

open Markup

/-! ### The machine -/

/-- The node that is active in some content, and the binding that its bindings nest under. -/
structure Scope where
  active : NodeId
  context : Option BindingId

/-- A binding, the node that it stands on, and the binding that it nests under. -/
structure Placed where
  parsed : ParsedBinding
  node : NodeId
  parent : Option BindingId

/-- The scopes of the open elements, and the logs.  The nodes are those below the root, each with
its parent. -/
structure Machine where
  /-- The scope of the innermost open element. -/
  top : Scope
  /-- The scopes around it. -/
  below : List Scope
  nodes : List (NodeId × NodeKind)
  bindings : List Placed
  directives : List Directive
  reported : List Diagnostic

namespace Machine

/-- Nothing has been read. -/
def initial : Machine := ⟨⟨Document.root, none⟩, [], [], [], [], []⟩

/-- The imports so far. -/
def imports (m : Machine) : List Import :=
  m.directives.filterMap fun
    | .imports content => some content
    | _ => none

/-- The view models so far. -/
def viewmodels (m : Machine) : List (Location × TypeReference) :=
  m.directives.filterMap fun
    | .viewmodel location type => some (location, type)
    | _ => none

/-- The lint directives so far. -/
def lints (m : Machine) : List (Location × List String × Bool) :=
  m.directives.filterMap fun
    | .lint location keys enable => some (location, keys, enable)
    | _ => none

/-- The handlers that are known with the imports so far. -/
def handlers (registry : Handlers) (m : Machine) : Handlers :=
  registry.importAll (m.imports.flatMap (·.aliases))

/-- The lint state behind a directive, and where it begins. -/
def mark (before : Nat × Suppression) (lint : Location × List String × Bool) :
    Nat × Suppression :=
  (lint.1.start,
    if lint.2.2 then before.2.enable lint.2.1 else before.2.disable lint.2.1)

/-- The lint states so far. -/
def marks (m : Machine) : List (Nat × Suppression) := m.lints.scanl mark (0, .initial)

/-- Adds a node below a given one. -/
def addNode (m : Machine) (parent : NodeId) (kind : NodeKind) : Machine :=
  { m with nodes := m.nodes ++ [(parent, kind)] }

/-- Adds bindings. -/
def place (m : Machine) (ps : List Placed) : Machine :=
  { m with bindings := m.bindings ++ ps }

/-- Adds a directive. -/
def log (m : Machine) (content : Directive) : Machine :=
  { m with directives := m.directives ++ [content] }

/-- Adds diagnostics. -/
def report (m : Machine) (ds : List Diagnostic) : Machine :=
  { m with reported := m.reported ++ ds }

/-- Adds a node in which the context is replaced, and makes it active in the innermost scope. -/
def openType (m : Machine) (content : TypeNode) : Machine :=
  { m.addNode m.top.active (.type content) with
    top := { m.top with active := m.nodes.length + 1 } }

/-- The effect of a directive. -/
def directive (file : String) (m : Machine) (content : Directive) : Machine :=
  match content with
  | .imports _ => m.log content
  | .lint _ _ _ => m.log content
  | .context location type => (m.log content).openType ⟨some type, false, some location⟩
  | .viewmodel location type =>
    if m.viewmodels.isEmpty then m.log content
    else
      ((m.log content).report
        [.ofKind .multipleViewmodelReferences file (some location) []]).openType
          ⟨some type, true, some location⟩

/-- The bindings of an element that can be read. -/
def readable [ScriptParser] (file : String) (ps : List Payload) : List ParsedBinding :=
  ps.flatMap fun p => ((parsePayload file p).toOption).getD []

/-- What is wrong with the payloads of an element that cannot be read. -/
def unreadable [ScriptParser] (file : String) (ps : List Payload) : List Diagnostic :=
  ps.filterMap fun p =>
    match parsePayload file p with
    | .ok _ => none
    | .error d => some d

/-- The declared handlers among some bindings. -/
def declared (registry : Handlers) (m : Machine) (found : List ParsedBinding) : List String :=
  (found.map (·.handler.value)).filter (m.handlers registry).isDeclared

/-- What is wrong with the bindings of an element together. -/
def clashes (file : String) (registry : Handlers) (m : Machine) (e : Element)
    (found : List ParsedBinding) : List Diagnostic :=
  (if e.isVirtual && 1 < found.length then
    [.ofKind .multipleCommentBindings file (some e.location) []] else []) ++
  (if 1 < (m.declared registry found).length then
    [.ofKind .multipleContextBindings file (some e.location)
      [", ".intercalate (m.declared registry found)]] else [])

/-- The node of an element, whose bindings get the next numbers. -/
def elementNode (registry : Handlers) (m : Machine) (e : Element) (found : List ParsedBinding) :
    BindingNode :=
  ⟨e.tag, e.location, List.range' m.bindings.length found.length, e.isVirtual,
    decide (1 < (m.declared registry found).length)⟩

/-- The scope of the content of an element with bindings: the next node, and the first of its
bindings that can open a context, if there is one. -/
def contentScope (registry : Handlers) (m : Machine) (found : List ParsedBinding) : Scope :=
  let generating := found.findIdx? fun p => (m.handlers registry).isGenerating p.handler.value
  ⟨m.nodes.length + 1, (generating.map (m.bindings.length + ·)).or m.top.context⟩

/-- The effect of the bindings of an element, and the scope of its content.  Bindings that can be
read make a node. -/
def element [ScriptParser] (file : String) (registry : Handlers) (m : Machine) (e : Element) :
    Scope × Machine :=
  let found := readable file e.bindings
  if found.isEmpty then (m.top, m.report (unreadable file e.bindings))
  else
    (m.contentScope registry found,
      ((m.report (unreadable file e.bindings ++ m.clashes file registry e found)).addNode
        m.top.active (.binding (m.elementNode registry e found))).place
          (found.map fun p => ⟨p, m.nodes.length + 1, m.top.context⟩))

/-- The effect of one token.  A start tag puts a scope on the stack, and an end tag takes one
from it. -/
def step [ScriptParser] (file : String) (registry : Handlers) (m : Machine) : Token → Machine
  | .directive content => m.directive file content
  | .element e =>
    match e.type with
    | .start =>
      let (scope, m') := m.element file registry e
      { m' with top := scope, below := m.top :: m.below }
    | .empty => (m.element file registry e).2
    | .stop =>
      match m.below with
      | [] => m
      | scope :: below => { m with top := scope, below }

/-- The effect of all tokens of a view. -/
def run [ScriptParser] (file : String) (registry : Handlers) (ts : List Token) : Machine :=
  ts.foldl (step file registry) initial

/-! ### The document of the logs -/

/-- The nodes below a given one. -/
def childrenOf (m : Machine) (i : NodeId) : List NodeId := m.nodes.findIdxs (·.1 == i) 1

/-- The bindings that nest under a given one. -/
def nestedUnder (m : Machine) (i : BindingId) : List BindingId :=
  m.bindings.findIdxs (·.parent == some i)

/-- The root has the type of the first view model. -/
def rootNode (m : Machine) : Node :=
  ⟨Document.root, none, m.childrenOf Document.root,
    .type ⟨m.viewmodels.head?.map (·.2), true, m.viewmodels.head?.map (·.1)⟩⟩

/-- The document of the logs. -/
def document (file text : String) (dialect : Dialect) (m : Machine) : Document where
  file := file
  dialect := dialect
  text := text
  nodes := (m.rootNode ::
    m.nodes.mapIdx fun i n => ⟨i + 1, some n.1, m.childrenOf (i + 1), n.2⟩).toArray
  bindings := (m.bindings.mapIdx fun i p =>
    ⟨i, p.parsed.handler, p.parsed.expression, p.parsed.itemAlias, p.node, p.parent,
      m.nestedUnder i⟩).toArray
  imports := m.imports
  handlerNames := .ofList (m.bindings.map (·.parsed.handler.value))
  timeline := ⟨m.marks.toArray⟩

/-- What is reported on a view, with what needs the whole view at the end. -/
def diagnostics (file : String) (m : Machine) : List Diagnostic :=
  m.reported ++
  (if m.viewmodels.isEmpty then [.ofKind .noViewmodelReference file none []] else []) ++
  (m.viewmodels.filter fun v => !m.imports.any fun i => i.aliases.contains v.2.rootName).map
    fun v => .ofKind .viewmodelNotFound file (some v.2.name.location) [v.2.rootName]

/-! ### Numbers in the logs -/

/-- A scope refers to a node and a binding that are in the logs. -/
structure Knows (m : Machine) (scope : Scope) : Prop where
  active_le : scope.active ≤ m.nodes.length
  context_lt : ∀ c, scope.context = some c → c < m.bindings.length

/-- The logs and the stack refer to nodes and bindings that are in the logs. -/
structure Bounded (m : Machine) : Prop where
  knows : ∀ scope ∈ m.top :: m.below, m.Knows scope
  nodes_le : ∀ n ∈ m.nodes, n.1 ≤ m.nodes.length
  bindings_lt : ∀ p ∈ m.bindings, ∀ c, p.parent = some c → c < m.bindings.length

variable {m : Machine}

theorem bounded_initial : initial.Bounded := by
  refine ⟨?_, ?_, ?_⟩
  · intro scope hscope
    rw [List.mem_singleton.mp hscope]
    exact ⟨Nat.le_refl _, fun c hc => nomatch hc⟩
  · intro n hn
    cases hn
  · intro p hp
    cases hp

theorem Bounded.addNode (h : m.Bounded) {p : NodeId} (hp : p ≤ m.nodes.length)
    (kind : NodeKind) : (m.addNode p kind).Bounded := by
  have hlen : m.nodes.length ≤ (m.addNode p kind).nodes.length :=
    (List.prefix_append _ _).length_le
  refine ⟨?_, ?_, h.bindings_lt⟩
  · intro scope hscope
    obtain ⟨hactive, hcontext⟩ := h.knows scope hscope
    exact ⟨Nat.le_trans hactive hlen, hcontext⟩
  · intro n hn
    rcases List.mem_append.mp hn with hn | hn
    · exact Nat.le_trans (h.nodes_le n hn) hlen
    · rw [List.mem_singleton.mp hn]
      exact Nat.le_trans hp hlen

theorem Bounded.place (h : m.Bounded) {ps : List Placed}
    (hps : ∀ p ∈ ps, ∀ c, p.parent = some c → c < m.bindings.length) :
    (m.place ps).Bounded := by
  have hlen : m.bindings.length ≤ (m.place ps).bindings.length :=
    (List.prefix_append _ _).length_le
  refine ⟨?_, h.nodes_le, ?_⟩
  · intro scope hscope
    obtain ⟨hactive, hcontext⟩ := h.knows scope hscope
    exact ⟨hactive, fun c hc => Nat.lt_of_lt_of_le (hcontext c hc) hlen⟩
  · intro p hp c hc
    rcases List.mem_append.mp hp with hp | hp
    · exact Nat.lt_of_lt_of_le (h.bindings_lt p hp c hc) hlen
    · exact Nat.lt_of_lt_of_le (hps p hp c hc) hlen

theorem Bounded.log (h : m.Bounded) (content : Directive) : (m.log content).Bounded := by
  obtain ⟨hknows, hnodes, hbindings⟩ := h
  exact ⟨fun scope hscope => ⟨(hknows scope hscope).1, (hknows scope hscope).2⟩, hnodes, hbindings⟩

theorem Bounded.report (h : m.Bounded) (ds : List Diagnostic) : (m.report ds).Bounded := by
  obtain ⟨hknows, hnodes, hbindings⟩ := h
  exact ⟨fun scope hscope => ⟨(hknows scope hscope).1, (hknows scope hscope).2⟩, hnodes, hbindings⟩

/-- The stack can be changed to scopes that refer to the logs. -/
theorem Bounded.setStack (h : m.Bounded) {top : Scope} {below : List Scope}
    (hknows : ∀ scope ∈ top :: below, m.Knows scope) : { m with top, below }.Bounded :=
  ⟨fun scope hscope => ⟨(hknows scope hscope).1, (hknows scope hscope).2⟩, h.nodes_le,
    h.bindings_lt⟩

/-! ### Writing to the logs -/

section

variable (file text : String) (dialect : Dialect)

/-- What is written at the end changes no other entry. -/
theorem getElem?_concat_of_ne {α : Type} {l : List α} {x : α} {i : Nat} (hi : i ≠ l.length) :
    (l ++ [x])[i]? = l[i]? := by
  rw [List.getElem?_append]
  split
  · rfl
  · rw [List.getElem?_singleton, if_neg (by omega), List.getElem?_eq_none (by omega)]

theorem childrenOf_addNode (m : Machine) (p : NodeId) (kind : NodeKind) (i : NodeId) :
    (m.addNode p kind).childrenOf i =
      if p = i then m.childrenOf i ++ [m.nodes.length + 1] else m.childrenOf i := by
  rw [childrenOf, addNode, List.findIdxs_append, List.findIdxs_singleton, Nat.add_comm 1]
  by_cases hpi : p = i
  · simp [hpi, childrenOf]
  · simp [hpi, childrenOf]

/-- A number that no node has yet has no children. -/
theorem Bounded.childrenOf_length (h : m.Bounded) : m.childrenOf (m.nodes.length + 1) = [] := by
  rw [childrenOf, List.findIdxs_eq_nil_iff]
  intro n hn
  have hle := h.nodes_le n hn
  exact beq_false_of_ne (Nat.ne_of_lt (Nat.lt_succ_of_le hle))

theorem getElem?_nodes_zero (m : Machine) :
    (m.document file text dialect).nodes[0]? = some m.rootNode := by
  simp [document]

theorem getElem?_nodes_succ (m : Machine) (i : Nat) :
    (m.document file text dialect).nodes[i + 1]? =
      m.nodes[i]?.map fun n => ⟨i + 1, some n.1, m.childrenOf (i + 1), n.2⟩ := by
  simp [document]

theorem size_nodes (m : Machine) :
    (m.document file text dialect).nodes.size = m.nodes.length + 1 := by
  simp [document]

/-- A node in the log is a node of the document. -/
theorem document_addNode (h : m.Bounded) {p : NodeId}
    (hp : p ≤ m.nodes.length) (kind : NodeKind) :
    (m.addNode p kind).document file text dialect =
      (m.document file text dialect).addNode p kind := by
  have hnodes : ((m.addNode p kind).document file text dialect).nodes =
      ((m.document file text dialect).addNode p kind).nodes := by
    have hlt : p < (m.document file text dialect).nodes.size := by
      rw [size_nodes]
      exact Nat.lt_succ_of_le hp
    refine Array.ext_getElem? ?_
    intro i
    rw [Document.getElem?_addNode _ hlt, size_nodes]
    cases i with
    | zero =>
      rw [getElem?_nodes_zero, getElem?_nodes_zero, if_neg (Nat.succ_ne_zero _).symm]
      have hroot : (m.addNode p kind).rootNode =
          { m.rootNode with children := (m.addNode p kind).childrenOf 0 } := rfl
      rw [hroot, childrenOf_addNode, Option.map_some]
      split <;> rfl
    | succ i =>
      rw [getElem?_nodes_succ, getElem?_nodes_succ, childrenOf_addNode]
      by_cases hi : i = m.nodes.length
      · -- the new node, which is not its own parent
        have hne : p ≠ i + 1 := Nat.ne_of_lt (hi ▸ Nat.lt_succ_of_le hp)
        rw [if_neg hne, hi, if_pos rfl, h.childrenOf_length]
        simp [addNode]
      · rw [if_neg (fun heq => hi (Nat.succ_inj.mp heq))]
        have hget : (m.addNode p kind).nodes[i]? = m.nodes[i]? := getElem?_concat_of_ne hi
        rw [hget, Option.map_map]
        congr 1
        funext n
        by_cases hpi : p = i + 1 <;> simp [hpi]
  calc (m.addNode p kind).document file text dialect
      = { m.document file text dialect with
          nodes := ((m.addNode p kind).document file text dialect).nodes } := rfl
    _ = (m.document file text dialect).addNode p kind := by
      rw [hnodes]
      rfl

theorem nestedUnder_place (m : Machine) (p : Placed) (i : BindingId) :
    (m.place [p]).nestedUnder i =
      if p.parent = some i then m.nestedUnder i ++ [m.bindings.length] else m.nestedUnder i := by
  rw [nestedUnder, place, List.findIdxs_append, List.findIdxs_singleton, Nat.zero_add]
  by_cases hpi : p.parent = some i
  · simp [hpi, nestedUnder]
  · simp [hpi, nestedUnder]

/-- Nothing nests under a number that no binding has yet. -/
theorem Bounded.nestedUnder_length (h : m.Bounded) : m.nestedUnder m.bindings.length = [] := by
  rw [nestedUnder, List.findIdxs_eq_nil_iff]
  intro p hp
  refine beq_false_of_ne ?_
  intro hparent
  exact Nat.lt_irrefl _ (h.bindings_lt p hp _ hparent)

theorem getElem?_bindings (m : Machine) (i : Nat) :
    (m.document file text dialect).bindings[i]? =
      m.bindings[i]?.map fun p => ⟨i, p.parsed.handler, p.parsed.expression, p.parsed.itemAlias,
        p.node, p.parent, m.nestedUnder i⟩ := by
  simp [document]

theorem size_bindings (m : Machine) :
    (m.document file text dialect).bindings.size = m.bindings.length := by
  simp [document]

/-- A binding in the log is a binding of the document. -/
theorem document_place (h : m.Bounded)
    (p : Placed) (hp : ∀ c, p.parent = some c → c < m.bindings.length) :
    (m.place [p]).document file text dialect =
      (m.document file text dialect).addBinding p.parsed p.node p.parent := by
  have hbindings : ((m.place [p]).document file text dialect).bindings =
      ((m.document file text dialect).addBinding p.parsed p.node p.parent).bindings := by
    have hparent : ∀ c, p.parent = some c → c < (m.document file text dialect).bindings.size := by
      rwa [size_bindings]
    refine Array.ext_getElem? ?_
    intro i
    rw [Document.getElem?_addBinding _ _ _ hparent, getElem?_bindings, getElem?_bindings,
      size_bindings, nestedUnder_place]
    by_cases hi : i = m.bindings.length
    · -- the new binding, which does not nest under itself
      have hne : p.parent ≠ some i := fun heq => Nat.lt_irrefl _ (hi ▸ hp i heq)
      rw [if_neg hne, hi, if_pos rfl, h.nestedUnder_length]
      simp [place]
    · rw [if_neg hi]
      have hget : (m.place [p]).bindings[i]? = m.bindings[i]? := getElem?_concat_of_ne hi
      rw [hget, Option.map_map]
      congr 1
      funext q
      by_cases hpi : p.parent = some i <;> simp [hpi]
  have hnames : ((m.place [p]).document file text dialect).handlerNames =
      (m.document file text dialect).handlerNames.insert p.parsed.handler.value := by
    simp only [document, place, List.map_append, NameSet.ofList, NameSet.insertMany,
      List.foldl_append]
    rfl
  calc (m.place [p]).document file text dialect
      = { m.document file text dialect with
          bindings := ((m.place [p]).document file text dialect).bindings
          handlerNames := ((m.place [p]).document file text dialect).handlerNames } := rfl
    _ = (m.document file text dialect).addBinding p.parsed p.node p.parent := by
      rw [hbindings, hnames]
      rfl

/-- Bindings in the log are bindings of the document, one after the other. -/
theorem document_addBindings (h : m.Bounded)
    (node : NodeId) (parent : Option BindingId) (hparent : ∀ c, parent = some c →
      c < m.bindings.length) (found : List ParsedBinding) (b : Builder)
    (hb : b.document = m.document file text dialect) :
    b.addBindings node parent found =
      { b with document :=
          (m.place (found.map fun p => ⟨p, node, parent⟩)).document file text dialect } := by
  induction found generalizing m b with
  | nil =>
    have hplace : m.place [] = m := by simp [place]
    rw [Builder.addBindings, List.map_nil, hplace, ← hb]
  | cons p found ih =>
    have hp : ∀ q ∈ [Placed.mk p node parent], ∀ c, q.parent = some c → c < m.bindings.length := by
      intro q hq
      rw [List.mem_singleton.mp hq]
      exact hparent
    have hplace : m.place ((p :: found).map fun p => ⟨p, node, parent⟩) =
        (m.place [⟨p, node, parent⟩]).place (found.map fun p => ⟨p, node, parent⟩) := by
      simp [place]
    have hnext : { b with document := b.document.addBinding p node parent }.document =
        (m.place [⟨p, node, parent⟩]).document file text dialect := by
      rw [document_place file text dialect h _ hparent, hb]
    rw [Builder.addBindings, hplace, ih (h.place hp) _ _ hnext]
    intro c hc
    exact Nat.lt_of_lt_of_le (hparent c hc) (List.prefix_append _ _).length_le

end

end Machine

end ViewLint
