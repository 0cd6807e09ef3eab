import ViewLint.Proofs.Document.Frames
import ViewLint.Proofs.Document.Machine
import ViewLint.Script.Accept

/-!
# Building refines the machine

Building a document and running the machine go side by side, token by token.  The frames of the
open elements have the scopes on the stack of the machine, and the builder always has just what
the logs say.  So the document of a view is that of the logs, and so are the diagnostics.

## Main definitions

* `Machine.builder` — a builder that has what the logs say.
* `Machine.Mirrors` — frames and a builder that go with a state of the machine.

## Main results

* `Machine.builder_directive`, `Machine.builder_element` — what a directive and an element do to
  a builder that has what the logs say.
* `Machine.Mirrors.step` — a token does the same to both.
* `build_eq_machine` — the document and the diagnostics of a view are those of the machine.
-/

namespace ViewLint

open Markup

namespace Machine

variable {m : Machine}

/-- A builder that has what the logs say. -/
def builder (file text : String) (dialect : Dialect) (registry : Handlers) (m : Machine) :
    Builder where
  document := m.document file text dialect
  diagnostics := m.reported
  suppression := (m.lints.foldl mark (0, .initial)).2
  handlers := m.handlers registry
  viewmodels := m.viewmodels.map (·.2)

section

variable (file text : String) (dialect : Dialect) (registry : Handlers)

/-! ### Directives -/

@[simp] theorem imports_log (m : Machine) (content : Directive) :
    (m.log content).imports = m.imports ++
      match content with
      | .imports content => [content]
      | _ => [] := by
  cases content <;> simp [imports, log]

@[simp] theorem viewmodels_log (m : Machine) (content : Directive) :
    (m.log content).viewmodels = m.viewmodels ++
      match content with
      | .viewmodel location type => [(location, type)]
      | _ => [] := by
  cases content <;> simp [viewmodels, log]

@[simp] theorem lints_log (m : Machine) (content : Directive) :
    (m.log content).lints = m.lints ++
      match content with
      | .lint location keys enable => [(location, keys, enable)]
      | _ => [] := by
  cases content <;> simp [lints, log]

/-- A directive that does not give the root its type only counts as an import or as a lint
directive. -/
theorem document_log (m : Machine) (content : Directive)
    (hhead : (m.log content).viewmodels.head? = m.viewmodels.head?) :
    (m.log content).document file text dialect = { m.document file text dialect with
      imports := (m.log content).imports
      timeline := ⟨(m.log content).marks.toArray⟩ } := by
  unfold document rootNode
  rw [hhead]
  rfl

/-- The first view model gives the root its type. -/
theorem document_log_viewmodel (m : Machine)
    (location : Location) (type : TypeReference) (hfirst : m.viewmodels = []) :
    (m.log (.viewmodel location type)).document file text dialect =
      (m.document file text dialect).setKind Document.root
        fun _ => .type ⟨some type, true, some location⟩ := by
  have hnodes : ((m.log (.viewmodel location type)).document file text dialect).nodes =
      ((m.document file text dialect).setKind Document.root
        fun _ => .type ⟨some type, true, some location⟩).nodes := by
    refine Array.ext_getElem? ?_
    intro i
    rw [Document.getElem?_setKind]
    cases i with
    | zero =>
      rw [getElem?_nodes_zero, getElem?_nodes_zero, Option.map_some, if_pos Document.root.eq_def,
        rootNode, viewmodels_log, hfirst]
      rfl
    | succ i =>
      rw [getElem?_nodes_succ, getElem?_nodes_succ, Option.map_map]
      rfl
  calc (m.log (.viewmodel location type)).document file text dialect
      = { m.document file text dialect with
          nodes := ((m.log (.viewmodel location type)).document file text dialect).nodes
          imports := (m.log (.viewmodel location type)).imports
          timeline := ⟨(m.log (.viewmodel location type)).marks.toArray⟩ } := rfl
    _ = _ := by
      rw [hnodes, imports_log, marks, lints_log, List.append_nil, List.append_nil]
      rfl

theorem viewmodel?_document (m : Machine) :
    (m.document file text dialect).viewmodel? = m.viewmodels.head?.map (·.2) := by
  rw [Document.viewmodel?, Document.root, getElem?_nodes_zero]
  rfl

/-- A node with a type that is opened in the log is opened by the builder. -/
theorem builder_openType (h : m.Bounded) (content : TypeNode) :
    (m.builder file text dialect registry).addNode m.top.active (.type content) =
      ((m.openType content).top.active,
        (m.openType content).builder file text dialect registry) := by
  have hactive := (h.knows m.top (List.mem_cons_self ..)).active_le
  have hdocument := document_addNode file text dialect h hactive (.type content)
  rw [Builder.addNode]
  refine Prod.ext ?_ ?_
  · exact size_nodes file text dialect m
  · change { m.builder file text dialect registry with
      document := (m.document file text dialect).addNode m.top.active (.type content) } = _
    rw [← hdocument]
    rfl

theorem builder_log_imports (m : Machine) (content : Import) :
    (m.log (.imports content)).builder file text dialect registry =
      { m.builder file text dialect registry with
        handlers := (m.handlers registry).importAll content.aliases
        document := { m.document file text dialect with imports := m.imports ++ [content] } } := by
  simp only [builder, handlers, marks, imports_log, viewmodels_log, lints_log, List.append_nil,
    document_log, List.flatMap_append, List.flatMap_singleton, Handlers.importAll,
    List.foldl_append]
  rfl

theorem builder_log_lint (m : Machine) (location : Location) (keys : List String) (enable : Bool) :
    (m.log (.lint location keys enable)).builder file text dialect registry =
      let b := m.builder file text dialect registry
      let state := if enable then b.suppression.enable keys else b.suppression.disable keys
      { b with
        suppression := state
        document := { b.document with
          timeline := b.document.timeline.push location.start state } } := by
  have hmarks : (m.log (.lint location keys enable)).marks =
      m.marks ++ [mark (m.lints.foldl mark (0, .initial)) (location, keys, enable)] := by
    rw [marks, lints_log, List.scanl_append, List.scanl_cons, List.scanl_nil]
    rfl
  simp only [builder, handlers, imports_log, viewmodels_log, lints_log, List.append_nil,
    document_log, hmarks, List.foldl_append, ← List.push_toArray]
  rfl

/-- A declared context changes nothing but the tree. -/
theorem builder_log_context (m : Machine) (location : Location) (type : TypeReference) :
    (m.log (.context location type)).builder file text dialect registry =
      m.builder file text dialect registry := by
  simp only [builder, handlers, marks, imports_log, viewmodels_log, lints_log, List.append_nil,
    document_log]
  rfl

/-- The first view model gives the root its type. -/
theorem builder_log_first (m : Machine) (location : Location) (type : TypeReference)
    (hfirst : m.viewmodels = []) :
    (m.log (.viewmodel location type)).builder file text dialect registry =
      { m.builder file text dialect registry with
        viewmodels := m.viewmodels.map (·.2) ++ [type]
        document := (m.document file text dialect).setKind Document.root
          fun _ => .type ⟨some type, true, some location⟩ } := by
  simp only [builder, handlers, imports_log, viewmodels_log, lints_log, List.append_nil,
    document_log_viewmodel file text dialect m _ _ hfirst, List.map_append]
  rfl

/-- A view model behind the first one is remembered. -/
theorem builder_log_later (m : Machine) (location : Location) (type : TypeReference)
    (hlater : m.viewmodels ≠ []) :
    (m.log (.viewmodel location type)).builder file text dialect registry =
      { m.builder file text dialect registry with
        viewmodels := m.viewmodels.map (·.2) ++ [type] } := by
  have hhead : (m.log (.viewmodel location type)).viewmodels.head? = m.viewmodels.head? := by
    rw [viewmodels_log, List.head?_append_of_ne_nil _ hlater]
  simp only [builder, handlers, marks, imports_log, viewmodels_log, lints_log, List.append_nil,
    document_log file text dialect m _ hhead, List.map_append]
  rfl

/-- The first viewmodel of a view is the type of the root. -/
theorem viewmodel_of_none {b : Builder} {current : NodeId} {location : Location}
    {type : TypeReference} (h : b.document.viewmodel? = none) :
    b.viewmodel current location type = (current,
      { b with
        viewmodels := b.viewmodels ++ [type]
        document := b.document.setKind Document.root fun _ =>
          .type ⟨some type, true, some location⟩ }) := by
  rw [Builder.viewmodel]
  simp only [h]

/-- A later one is reported, and opens a node of its own. -/
theorem viewmodel_of_some {b : Builder} {current : NodeId} {location : Location}
    {type first : TypeReference} (h : b.document.viewmodel? = some first) :
    b.viewmodel current location type =
      (Builder.report { b with viewmodels := b.viewmodels ++ [type] }
        .multipleViewmodelReferences (some location) []).addNode current
          (.type ⟨some type, true, some location⟩) := by
  rw [Builder.viewmodel]
  simp only [h]

/-- What a directive does to a builder that has what the logs say. -/
theorem builder_directive (h : m.Bounded) (content : Directive) :
    (m.builder file text dialect registry).directive m.top.active content =
      ((m.directive file content).top.active,
        (m.directive file content).builder file text dialect registry) := by
  cases content with
  | imports content =>
    rw [Builder.directive, directive, builder_log_imports]
    rfl
  | lint location keys enable =>
    rw [Builder.directive, directive, builder_log_lint]
    rfl
  | context location type =>
    rw [Builder.directive, directive, ← builder_log_context file text dialect registry m location
      type]
    exact builder_openType file text dialect registry (h.log _) _
  | viewmodel location type =>
    have hviewmodel := viewmodel?_document file text dialect m
    rw [Builder.directive, directive]
    cases hall : m.viewmodels with
    | nil =>
      rw [hall] at hviewmodel
      rw [if_pos List.isEmpty_nil, builder_log_first file text dialect registry m _ _ hall,
        viewmodel_of_none hviewmodel]
      rfl
    | cons first rest =>
      rw [hall] at hviewmodel
      have hne : m.viewmodels ≠ [] := by simp [hall]
      rw [if_neg (by simp), viewmodel_of_some hviewmodel]
      let fault : Diagnostic := .ofKind .multipleViewmodelReferences file (some location) []
      have hlog : ((m.log (.viewmodel location type)).report [fault]).builder file text dialect
          registry = { m.builder file text dialect registry with
            viewmodels := m.viewmodels.map (·.2) ++ [type]
            diagnostics := m.reported ++ [fault] } := by
        calc ((m.log (.viewmodel location type)).report [fault]).builder file text dialect registry
            = { (m.log (.viewmodel location type)).builder file text dialect registry with
                diagnostics := m.reported ++ [fault] } := rfl
          _ = _ := by rw [builder_log_later file text dialect registry m _ _ hne]
      have hopen := builder_openType file text dialect registry
        ((h.log (.viewmodel location type)).report [fault]) ⟨some type, true, some location⟩
      rw [hlog] at hopen
      exact hopen

/-! ### Elements -/

/-- Payloads that cannot be read are reported, and the others give bindings. -/
theorem payloads_eq [ScriptParser] (b : Builder) (ps : List Payload) :
    b.payloads ps = (readable b.document.file ps,
      { b with diagnostics := b.diagnostics ++ unreadable b.document.file ps }) := by
  induction ps generalizing b with
  | nil => simp [Builder.payloads, readable, unreadable]
  | cons p ps ih =>
    rw [Builder.payloads]
    cases hp : parsePayload b.document.file p with
    | ok found =>
      simp only [ih, readable, unreadable, List.flatMap_cons, List.filterMap_cons, hp]
      rfl
    | error d =>
      simp only [ih, readable, unreadable, List.flatMap_cons, List.filterMap_cons, hp,
        List.append_assoc]
      rfl

theorem generating?_eq (b : Builder) (first : BindingId) (found : List ParsedBinding) :
    b.generating? first found =
      (found.findIdx? fun p => b.handlers.isGenerating p.handler.value).map (first + ·) := by
  induction found generalizing first with
  | nil => rfl
  | cons p found ih =>
    rw [Builder.generating?, List.findIdx?_cons]
    split
    · rfl
    · rw [ih, Option.map_map]
      congr 1
      funext i
      exact Nat.add_right_comm first 1 i

theorem builder_checks (m : Machine) (e : Element) (found : List ParsedBinding) :
    ((m.builder file text dialect registry).checkComment e found).checkDeclared e found =
      (m.report (m.clashes file registry e found)).builder file text dialect registry := by
  have hcomment : (m.builder file text dialect registry).checkComment e found =
      (m.report (if e.isVirtual && 1 < found.length then
        [.ofKind .multipleCommentBindings file (some e.location) []] else [])).builder
          file text dialect registry := by
    rw [Builder.checkComment]
    split
    · rfl
    · simp [report]
  rw [hcomment, Builder.checkDeclared, clashes]
  generalize (if e.isVirtual && 1 < found.length then
    [Diagnostic.ofKind .multipleCommentBindings file (some e.location) []] else []) = ds
  change (if 1 < (m.declared registry found).length then _ else _) = _
  by_cases hmany : 1 < (m.declared registry found).length
  · rw [if_pos hmany, if_pos hmany]
    simp only [report, ← List.append_assoc]
    rfl
  · rw [if_neg hmany, if_neg hmany, List.append_nil]

/-- An element with bindings gets a node, and its bindings the next numbers. -/
theorem element_of_found [ScriptParser] {b b₁ b₂ : Builder} {e : Element}
    {found : List ParsedBinding} (current : NodeId) (context : Option BindingId)
    (hread : b.payloads e.bindings = (found, b₁)) (hfound : ¬found.isEmpty)
    (hchecks : (b₁.checkComment e found).checkDeclared e found = b₂) :
    b.element current context e =
      ((b₂.document.nodes.size,
        ((found.findIdx? fun p => b₂.handlers.isGenerating p.handler.value).map
          (b₂.document.bindings.size + ·)).or context),
        (b₂.addNode current (.binding ⟨e.tag, e.location,
          List.range' b₂.document.bindings.size found.length, e.isVirtual,
          decide (1 < (b₂.declaredOf found).length)⟩)).2.addBindings
            b₂.document.nodes.size context found) := by
  subst hchecks
  rw [Builder.element, hread]
  dsimp only
  rw [if_neg hfound, List.range'_eq_map_range]
  refine Prod.ext (Prod.ext rfl ?_) rfl
  dsimp only [Builder.addNode]
  rw [generating?_eq]

/-- A node and its bindings in the logs are those that the builder adds. -/
theorem builder_addElement (h : m.Bounded) (content : BindingNode) (found : List ParsedBinding) :
    ((m.builder file text dialect registry).addNode m.top.active (.binding content)).2.addBindings
        (m.nodes.length + 1) m.top.context found =
      ((m.addNode m.top.active (.binding content)).place
        (found.map fun p => ⟨p, m.nodes.length + 1, m.top.context⟩)).builder
          file text dialect registry := by
  obtain ⟨hactive, hcontext⟩ := h.knows m.top (List.mem_cons_self ..)
  exact document_addBindings file text dialect (h.addNode hactive _) (m.nodes.length + 1)
    m.top.context hcontext found _ (document_addNode file text dialect h hactive _).symm

/-- What an element does to a builder that has what the logs say. -/
theorem builder_element [ScriptParser] (h : m.Bounded) (e : Element) :
    (m.builder file text dialect registry).element m.top.active m.top.context e =
      (((m.element file registry e).1.active, (m.element file registry e).1.context),
        (m.element file registry e).2.builder file text dialect registry) := by
  have hread := payloads_eq (m.builder file text dialect registry) e.bindings
  change _ = (readable file e.bindings,
    (m.report (unreadable file e.bindings)).builder file text dialect registry) at hread
  rw [element]
  by_cases hempty : (readable file e.bindings).isEmpty
  · rw [Builder.element, hread]
    dsimp only
    rw [if_pos hempty, if_pos hempty]
  · let found := readable file e.bindings
    let m₁ := m.report (unreadable file e.bindings ++ m.clashes file registry e found)
    have hchecks : (((m.report (unreadable file e.bindings)).builder file text dialect
        registry).checkComment e found).checkDeclared e found =
          m₁.builder file text dialect registry := by
      rw [builder_checks]
      simp only [m₁, report, List.append_assoc]
      rfl
    rw [element_of_found _ _ hread hempty hchecks, if_neg hempty]
    have hnodes : (m₁.builder file text dialect registry).document.nodes.size =
        m.nodes.length + 1 := size_nodes file text dialect m₁
    have hbindings : (m₁.builder file text dialect registry).document.bindings.size =
        m.bindings.length := size_bindings file text dialect m₁
    rw [hnodes, hbindings]
    refine Prod.ext rfl ?_
    exact builder_addElement file text dialect registry (h.report _) _ found

end

/-! ### Steps and runs -/

theorem Bounded.openType (h : m.Bounded) (content : TypeNode) : (m.openType content).Bounded := by
  have htop := h.knows m.top (List.mem_cons_self ..)
  have hadd := h.addNode htop.active_le (.type content)
  have hlen : (m.addNode m.top.active (.type content)).nodes.length = m.nodes.length + 1 :=
    List.length_append
  refine hadd.setStack ?_
  intro scope hscope
  rcases List.mem_cons.mp hscope with rfl | hscope
  · exact ⟨Nat.le_of_eq hlen.symm, htop.context_lt⟩
  · exact hadd.knows scope (List.mem_cons_of_mem _ hscope)

theorem Bounded.directive (file : String) (h : m.Bounded) (content : Directive) :
    (m.directive file content).Bounded := by
  cases content with
  | imports content => exact h.log _
  | lint location keys enable => exact h.log _
  | context location type => exact (h.log _).openType _
  | viewmodel location type =>
    unfold Machine.directive
    dsimp only
    split
    · exact h.log _
    · exact ((h.log _).report _).openType _

/-- The scope of the content of an element refers to the logs. -/
theorem Bounded.element [ScriptParser] (file : String) (registry : Handlers) (h : m.Bounded)
    (e : Element) :
    (m.element file registry e).2.Bounded ∧
      (m.element file registry e).2.Knows (m.element file registry e).1 := by
  have htop := h.knows m.top (List.mem_cons_self ..)
  rw [Machine.element]
  split
  · have hreport := h.report (unreadable file e.bindings)
    exact ⟨hreport, hreport.knows m.top (List.mem_cons_self ..)⟩
  · refine ⟨((h.report _).addNode htop.active_le _).place ?_, ?_, ?_⟩
    · intro p hp c hc
      obtain ⟨q, -, rfl⟩ := List.mem_map.mp hp
      exact htop.context_lt c hc
    · change m.nodes.length + 1 ≤ (m.nodes ++ [_]).length
      rw [List.length_append]
      exact Nat.le_refl _
    · intro c hc
      change c < (m.bindings ++ _).length
      rw [List.length_append, List.length_map]
      rcases Option.or_eq_some_iff.mp hc with hgenerating | ⟨-, hcontext⟩
      · -- one of the bindings of the element
        obtain ⟨i, hi, rfl⟩ := Option.map_eq_some_iff.mp hgenerating
        exact Nat.add_lt_add_left (List.findIdx?_eq_some_iff_getElem.mp hi).1 _
      · exact Nat.lt_add_right _ (htop.context_lt c hcontext)

theorem stack_element [ScriptParser] (file : String) (registry : Handlers) (m : Machine)
    (e : Element) :
    (m.element file registry e).2.top = m.top ∧ (m.element file registry e).2.below = m.below := by
  rw [Machine.element]
  split
  · exact ⟨rfl, rfl⟩
  · exact ⟨rfl, rfl⟩

theorem below_directive (file : String) (m : Machine) (content : Directive) :
    (m.directive file content).top.context = m.top.context ∧
      (m.directive file content).below = m.below := by
  cases content with
  | viewmodel location type =>
    unfold Machine.directive
    dsimp only
    split
    · exact ⟨rfl, rfl⟩
    · exact ⟨rfl, rfl⟩
  | _ => exact ⟨rfl, rfl⟩

/-- The part of a frame that the machine keeps. -/
def Scope.ofFrame (f : Frame) : Scope := ⟨f.current, f.context⟩

/-- The frames have the scopes of the machine, and the builder has what its logs say. -/
structure Mirrors (file text : String) (dialect : Dialect) (registry : Handlers) (s : Nest)
    (m : Machine) : Prop where
  builder : s.builder = m.builder file text dialect registry
  top : m.top = Scope.ofFrame s.frame
  below : m.below = s.around.map Scope.ofFrame
  bounded : m.Bounded

variable {file text : String} {dialect : Dialect} {registry : Handlers} {s s' : Nest}

theorem Mirrors.element [ScriptParser] (h : Mirrors file text dialect registry s m) (e : Element) :
    s.builder.element s.frame.current s.frame.context e =
      (((m.element file registry e).1.active, (m.element file registry e).1.context),
        (m.element file registry e).2.builder file text dialect registry) := by
  have hstep := builder_element file text dialect registry h.bounded e
  rw [h.top] at hstep
  rw [h.builder]
  exact hstep

theorem Mirrors.directive (h : Mirrors file text dialect registry s m) (content : Directive) :
    s.builder.directive s.frame.current content =
      ((m.directive file content).top.active,
        (m.directive file content).builder file text dialect registry) := by
  have hstep := builder_directive file text dialect registry h.bounded content
  rw [h.top] at hstep
  rw [h.builder]
  exact hstep

/-- A token does the same to the frames and to the machine. -/
theorem Mirrors.step [ScriptParser] (h : Mirrors file text dialect registry s m) {t : Token}
    (hok : s.step t = .ok s') : Mirrors file text dialect registry s' (m.step file registry t) := by
  cases t with
  | directive content =>
    obtain ⟨hcontext, hbelow⟩ := below_directive file m content
    rw [Nest.step, h.directive content] at hok
    cases hok
    refine ⟨rfl, ?_, hbelow.trans h.below, h.bounded.directive file content⟩
    rw [h.top] at hcontext
    exact congrArg (Scope.mk _) hcontext
  | element e =>
    obtain ⟨hbounded, hknows⟩ := h.bounded.element file registry e
    obtain ⟨htop, hbelow⟩ := stack_element file registry m e
    simp only [Nest.step] at hok
    simp only [Machine.step]
    cases htype : e.type with
    | start =>
      rw [htype] at hok
      dsimp only at hok ⊢
      split at hok
      · cases hok
      · rw [Nest.enter, h.element e] at hok
        cases hok
        refine ⟨rfl, rfl, ?_, hbounded.setStack ?_⟩
        · rw [h.top, h.below]
          rfl
        · intro scope hscope
          rcases List.mem_cons.mp hscope with rfl | hscope
          · exact hknows
          · rw [← htop, ← hbelow] at hscope
            exact hbounded.knows scope hscope
    | empty =>
      rw [htype] at hok
      dsimp only at hok ⊢
      rw [h.element e] at hok
      cases hok
      exact ⟨rfl, htop.trans h.top, hbelow.trans h.below, hbounded⟩
    | stop =>
      rw [htype] at hok
      dsimp only at hok ⊢
      split at hok
      · next f fs _ haround =>
        have hm := h.below
        rw [haround, List.map_cons] at hm
        split at hok
        · cases hok
          rw [hm]
          refine ⟨h.builder, rfl, rfl, h.bounded.setStack ?_⟩
          intro scope hscope
          rw [← List.map_cons, List.map_cons, ← hm] at hscope
          exact h.bounded.knows scope (List.mem_cons_of_mem _ hscope)
        · cases hok
      · cases hok

/-- All tokens do the same to the frames and to the machine. -/
theorem Mirrors.run [ScriptParser] (h : Mirrors file text dialect registry s m) (ts : List Token)
    {b : Builder} (hok : s.run ts = .ok b) :
    b = (ts.foldl (Machine.step file registry) m).builder file text dialect registry := by
  induction ts generalizing s m with
  | nil =>
    rw [Nest.run_nil, Nest.close] at hok
    split at hok
    · cases hok
    · cases hok
      exact h.builder
  | cons t ts ih =>
    rw [Nest.run_cons] at hok
    cases hstep : s.step t with
    | error failure =>
      rw [hstep] at hok
      cases hok
    | ok s' =>
      rw [hstep] at hok
      exact ih (h.step hstep) hok

/-! ### The whole view -/

/-- Every view model with a name that is not imported is reported. -/
theorem diagnostics_checkViewmodels (b : Builder) (types : List TypeReference) :
    (types.foldl Builder.checkViewmodel b).diagnostics = b.diagnostics ++
      (types.filter fun t => !b.document.isImported t.rootName).map fun t =>
        .ofKind .viewmodelNotFound b.document.file (some t.name.location) [t.rootName] := by
  induction types generalizing b with
  | nil => simp
  | cons t types ih =>
    rw [List.foldl_cons, ih, Builder.checkViewmodel]
    by_cases himported : b.document.isImported t.rootName
    · simp [himported]
    · simp [himported, Builder.report]

theorem diagnostics_finish (file text : String) (dialect : Dialect) (registry : Handlers)
    (m : Machine) :
    (m.builder file text dialect registry).finish.diagnostics = m.diagnostics file := by
  have hviewmodel : (m.builder file text dialect registry).document.viewmodel? =
      m.viewmodels.head?.map (·.2) := viewmodel?_document file text dialect m
  have hnone : (m.viewmodels.head?.map (·.2)).isNone = m.viewmodels.isEmpty := by
    cases m.viewmodels <;> rfl
  have hfilter : ∀ vs : List (Location × TypeReference),
      ((vs.map (·.2)).filter fun t =>
        !(m.document file text dialect).isImported t.rootName).map (fun t =>
          Diagnostic.ofKind .viewmodelNotFound file (some t.name.location) [t.rootName]) =
      (vs.filter fun v => !m.imports.any fun i => i.aliases.contains v.2.rootName).map
        fun v => .ofKind .viewmodelNotFound file (some v.2.name.location) [v.2.rootName] := by
    intro vs
    rw [List.filter_map, List.map_map]
    rfl
  rw [Builder.finish, hviewmodel, hnone, diagnostics_checkViewmodels, diagnostics, ← hfilter]
  cases m.viewmodels.isEmpty with
  | true => rfl
  | false =>
    rw [if_neg Bool.false_ne_true, if_neg Bool.false_ne_true, List.append_nil]
    rfl

end Machine

/-- What has been built of a view is what the logs of the machine say. -/
theorem eq_builder_of_buildTokens [ScriptParser] {file text : String} {tokenized : Tokenized}
    {handlers : Handlers} {b : Builder} {rest : List Token}
    (h : buildTokens file text tokenized handlers = .ok (b, rest)) :
    b = (Machine.run file handlers tokenized.tokens).builder file text tokenized.dialect
      handlers := by
  have hrun := buildTokens_eq_run file text tokenized handlers
  rw [h] at hrun
  have hstart : Machine.Mirrors file text tokenized.dialect handlers
      (.initial file text tokenized.dialect handlers) .initial :=
    ⟨rfl, rfl, rfl, Machine.bounded_initial⟩
  exact hstart.run tokenized.tokens hrun.symm

/-- A view with a document has been read to its end. -/
theorem exists_buildTokens [ScriptParser] {file text : String} {tokenized : Tokenized}
    {handlers : Handlers} {d : Document}
    (hd : (build file text tokenized handlers).document = some d) :
    ∃ b rest, buildTokens file text tokenized handlers = .ok (b, rest) ∧ b.document = d ∧
      build file text tokenized handlers = ⟨some d, b.finish.allowed⟩ := by
  rw [build] at hd ⊢
  cases hbuild : buildTokens file text tokenized handlers with
  | error failure =>
    rw [hbuild] at hd
    cases hd
  | ok r =>
    obtain ⟨b, rest⟩ := r
    rw [hbuild] at hd
    have hdocument : b.finish.document = d := Option.some.inj hd
    refine ⟨b, rest, rfl, ?_, ?_⟩
    · rw [← Builder.document_finish, hdocument]
    · dsimp only
      rw [hdocument]

theorem document_eq_machine [ScriptParser] {file text : String} {tokenized : Tokenized}
    {handlers : Handlers} {d : Document}
    (hd : (build file text tokenized handlers).document = some d) :
    d = (Machine.run file handlers tokenized.tokens).document file text tokenized.dialect := by
  obtain ⟨b, rest, hbuild, rfl, -⟩ := exists_buildTokens hd
  exact congrArg (·.document) (eq_builder_of_buildTokens hbuild)

/-- **A view has the document and the diagnostics of the machine.**  The diagnostics are those of
its log, less what lint directives silence. -/
theorem build_eq_machine [ScriptParser] {file text : String} {tokenized : Tokenized}
    {handlers : Handlers} {d : Document}
    (hd : (build file text tokenized handlers).document = some d) :
    d = (Machine.run file handlers tokenized.tokens).document file text tokenized.dialect ∧
    ∃ b rest, buildTokens file text tokenized handlers = .ok (b, rest) ∧
      b.finish.diagnostics = (Machine.run file handlers tokenized.tokens).diagnostics file ∧
      (build file text tokenized handlers).diagnostics =
        ((Machine.run file handlers tokenized.tokens).diagnostics file).filter
          d.timeline.allows := by
  obtain ⟨b, rest, hbuild, hdocument, hbuilt⟩ := exists_buildTokens hd
  have hdiagnostics : b.finish.diagnostics =
      (Machine.run file handlers tokenized.tokens).diagnostics file := by
    rw [eq_builder_of_buildTokens hbuild]
    exact Machine.diagnostics_finish file text tokenized.dialect handlers _
  refine ⟨document_eq_machine hd, b, rest, hbuild, hdiagnostics, ?_⟩
  rw [hbuilt]
  dsimp only [Builder.allowed]
  rw [hdiagnostics, Builder.document_finish, hdocument]

/-- A loop around an element that stands behind a declared context, and a second view model
behind the loop. -/
def scopedView : Tokenized :=
  let type : TypeReference := ⟨⟨"View", default⟩, true⟩
  let tag (tagType : TagType) (bindings : List Payload) : Token :=
    .element ⟨"p", tagType, default, bindings, false⟩
  ⟨[.directive (.viewmodel default type), tag .start [⟨default, "foreach:a"⟩],
    .directive (.context default type), tag .empty [⟨default, "a:1"⟩], tag .stop [],
    .directive (.viewmodel default type), tag .empty [⟨default, "a:1"⟩]], .html⟩

theorem build_eq_machine_scopedView :
    let handlers : Handlers := .ofConfigured []
    let m := Machine.run "view.html" handlers scopedView.tokens
    ∃ d, (build "view.html" "" scopedView handlers).document = some d ∧
      d.nodes.toList.map (·.parent) = [none, some 0, some 1, some 2, some 0, some 4] ∧
      d.bindings.toList.map (·.parent) = [none, some 0, none] ∧
      d = m.document "view.html" "" .html ∧
      ∃ b rest, buildTokens "view.html" "" scopedView handlers = .ok (b, rest) ∧
        b.finish.diagnostics = m.diagnostics "view.html" ∧
        (build "view.html" "" scopedView handlers).diagnostics =
          (m.diagnostics "view.html").filter d.timeline.allows := by
  intro handlers m
  have hbuilt : ((build "view.html" "" scopedView handlers).document.map fun d =>
      (d.nodes.toList.map (·.parent), d.bindings.toList.map (·.parent))) =
        some ([none, some 0, some 1, some 2, some 0, some 4], [none, some 0, none]) := by
    decide +kernel
  obtain ⟨d, hd, hparents⟩ := Option.map_eq_some_iff.mp hbuilt
  obtain ⟨hdocument, hdiagnostics⟩ := build_eq_machine hd
  obtain ⟨hnodes, hbindings⟩ := Prod.mk.inj hparents
  exact ⟨d, hd, hnodes, hbindings, hdocument, hdiagnostics⟩

end ViewLint
