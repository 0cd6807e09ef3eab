import ViewLint.Proofs.Document.Refinement

/-!
# Where bindings come from

Every binding of a document has been read from a payload of an element of the view, and it is
among the bindings of the node that it names.  Both are facts about the logs of the machine, which
are only ever written at their ends.

## Main definitions

* `Stated` — a binding that can be read in a view.
* `Machine.Sourced` — the bindings in the logs are read in the view, and their nodes have them.

## Main results

* `Machine.Sourced.step`, `Machine.sourced_run` — one token and all tokens keep the logs so.
* `mem_bindingsOf_of_build` — a binding is among those of its node.
* `stated_of_build` — a binding has been read from a payload of the view.
-/

namespace ViewLint

open Markup

/-- A payload of an element of the view can be read, and has the binding. -/
def Stated [ScriptParser] (file : String) (ts : List Token) (p : ParsedBinding) : Prop :=
  ∃ e payload found, Token.element e ∈ ts ∧ payload ∈ e.bindings ∧
    parsePayload file payload = .ok found ∧ p ∈ found

namespace Machine

/-- The binding with number `k` is among those of its node. -/
def Owned (m : Machine) (k : Nat) (x : Placed) : Prop :=
  ∃ i parent content, x.node = i + 1 ∧ m.nodes[i]? = some (parent, .binding content) ∧
    k ∈ content.bindings

variable {m : Machine}

/-- What is written in a log stays where it is. -/
theorem getElem?_of_prefix {α : Type} {xs ys : List α} (h : xs <+: ys) {n : Nat} {x : α}
    (hx : xs[n]? = some x) : ys[n]? = some x := by
  obtain ⟨hn, rfl⟩ := List.getElem?_eq_some_iff.mp hx
  exact List.prefix_iff_getElem?.mp h n hn

theorem Owned.grow {k : Nat} {x : Placed} (h : m.Owned k x) {m' : Machine}
    (hnodes : m.nodes <+: m'.nodes) : m'.Owned k x := by
  obtain ⟨i, parent, content, hnode, hi, hk⟩ := h
  exact ⟨i, parent, content, hnode, getElem?_of_prefix hnodes hi, hk⟩

variable [ScriptParser] {file : String} {ts : List Token}

/-- The bindings in the logs are read in the view, and their nodes have them. -/
structure Sourced (file : String) (ts : List Token) (m : Machine) : Prop where
  stated : ∀ x ∈ m.bindings, Stated file ts x.parsed
  owned : ∀ k x, m.bindings[k]? = some x → m.Owned k x

theorem sourced_initial : Sourced file ts initial :=
  ⟨fun _ hx => (List.not_mem_nil hx).elim, fun _ _ hx => nomatch hx⟩

/-- Only what is added to the logs has to be looked at. -/
theorem Sourced.grow (h : m.Sourced file ts) {m' : Machine} {ps : List Placed}
    (hnodes : m.nodes <+: m'.nodes) (hbindings : m'.bindings = m.bindings ++ ps)
    (hstated : ∀ x ∈ ps, Stated file ts x.parsed)
    (howned : ∀ j x, ps[j]? = some x → m'.Owned (m.bindings.length + j) x) :
    m'.Sourced file ts := by
  refine ⟨?_, ?_⟩
  · intro x hx
    rw [hbindings] at hx
    exact (List.mem_append.mp hx).elim (h.stated x) (hstated x)
  · intro k x hk
    rw [hbindings] at hk
    by_cases hlt : k < m.bindings.length
    · rw [List.getElem?_append_left hlt] at hk
      exact (h.owned k x hk).grow hnodes
    · rw [List.getElem?_append_right (Nat.le_of_not_lt hlt)] at hk
      have := howned _ x hk
      rwa [Nat.add_sub_cancel' (Nat.le_of_not_lt hlt)] at this

theorem Sourced.keep (h : m.Sourced file ts) {m' : Machine}
    (hnodes : m.nodes <+: m'.nodes) (hbindings : m'.bindings = m.bindings) :
    m'.Sourced file ts := by
  refine h.grow hnodes (by rw [hbindings, List.append_nil]) ?_ ?_
  · intro x hx
    cases hx
  · intro j x hx
    cases hx

/-! ### One token -/

/-- A binding of an element has been read from one of its payloads. -/
theorem exists_of_mem_readable {ps : List Payload} {p : ParsedBinding}
    (hp : p ∈ readable file ps) :
    ∃ payload found, payload ∈ ps ∧ parsePayload file payload = .ok found ∧ p ∈ found := by
  obtain ⟨payload, hpayload, hp⟩ := List.mem_flatMap.mp hp
  cases hparse : parsePayload file payload with
  | error diagnostic =>
    rw [hparse] at hp
    cases hp
  | ok found =>
    rw [hparse] at hp
    exact ⟨payload, found, hpayload, hparse, hp⟩

theorem stated_of_mem_readable {e : Element} (he : Token.element e ∈ ts)
    {p : ParsedBinding} (hp : p ∈ readable file e.bindings) : Stated file ts p := by
  obtain ⟨payload, found, hpayload, hparse, hp⟩ := exists_of_mem_readable hp
  exact ⟨e, payload, found, he, hpayload, hparse, hp⟩

theorem Sourced.directive (h : m.Sourced file ts) (content : Directive) :
    (m.directive file content).Sourced file ts := by
  cases content with
  | imports _ => exact h.keep (List.prefix_rfl) rfl
  | lint _ _ _ => exact h.keep (List.prefix_rfl) rfl
  | context location type => exact h.keep (List.prefix_append _ _) rfl
  | viewmodel location type =>
    rw [Machine.directive]
    split
    · exact h.keep (List.prefix_rfl) rfl
    · exact h.keep (List.prefix_append _ _) rfl

/-- The node of an element has the numbers that its bindings get. -/
theorem Sourced.element (registry : Handlers) (h : m.Sourced file ts) {e : Element}
    (he : Token.element e ∈ ts) : (m.element file registry e).2.Sourced file ts := by
  rw [Machine.element]
  split
  · exact h.keep (List.prefix_rfl) rfl
  · refine h.grow (List.prefix_append _ _) rfl ?_ ?_
    · intro x hx
      obtain ⟨p, hp, rfl⟩ := List.mem_map.mp hx
      exact stated_of_mem_readable he hp
    · intro j x hx
      rw [List.getElem?_map] at hx
      obtain ⟨p, hp, rfl⟩ := Option.map_eq_some_iff.mp hx
      have hj : j < (readable file e.bindings).length := (List.getElem?_eq_some_iff.mp hp).1
      refine ⟨m.nodes.length, m.top.active, m.elementNode registry e (readable file e.bindings),
        rfl, List.getElem?_concat_length, ?_⟩
      exact List.mem_range'_1.mpr ⟨Nat.le_add_right _ _, Nat.add_lt_add_left hj _⟩

theorem Sourced.step (registry : Handlers) (h : m.Sourced file ts) {t : Token}
    (ht : t ∈ ts) :
    (m.step file registry t).Sourced file ts := by
  cases t with
  | directive content => exact h.directive content
  | element e =>
    have helement := h.element registry ht
    rw [Machine.step]
    split
    · -- the stack says nothing about the logs
      exact helement.keep (List.prefix_rfl) rfl
    · exact helement
    · split
      · exact h
      · exact h.keep (List.prefix_rfl) rfl

theorem sourced_run (file : String) (registry : Handlers) (ts : List Token) :
    (run file registry ts).Sourced file ts :=
  List.foldlRecOn ts (step file registry) (motive := fun m => m.Sourced file ts) sourced_initial
    fun _ h _ ht => h.step registry ht

end Machine

/-! ### The bindings of a document -/

section

variable [ScriptParser] {file text : String} {tokenized : Tokenized} {handlers : Handlers}
  {d : Document} {k : Nat} {b : Binding}

/-- A binding of a document is one of the log of the machine. -/
theorem exists_placed (hd : (build file text tokenized handlers).document = some d)
    (hb : d.bindings[k]? = some b) :
    ∃ x, (Machine.run file handlers tokenized.tokens).bindings[k]? = some x ∧ b.id = k ∧
      b.node = x.node ∧ (⟨b.handler, b.expression, b.itemAlias⟩ : ParsedBinding) = x.parsed := by
  rw [document_eq_machine hd, Machine.getElem?_bindings] at hb
  obtain ⟨x, hx, rfl⟩ := Option.map_eq_some_iff.mp hb
  exact ⟨x, hx, rfl, rfl, rfl⟩

/-- A binding has the number of its place, and is among the bindings of its node. -/
theorem mem_bindingsOf_of_build (hd : (build file text tokenized handlers).document = some d)
    (hb : d.bindings[k]? = some b) : b.id = k ∧ k ∈ d.bindingsOf b.node := by
  obtain ⟨x, hx, hid, hnode, -⟩ := exists_placed hd hb
  obtain ⟨i, parent, content, hi, hget, hk⟩ :=
    (Machine.sourced_run file handlers tokenized.tokens).owned k x hx
  refine ⟨hid, ?_⟩
  have hkind : d.kind? b.node = some (.binding content) := by
    rw [hnode, hi, document_eq_machine hd, Document.kind?, Machine.getElem?_nodes_succ, hget]
    rfl
  rw [Document.bindingsOf_eq hkind]
  exact hk

/-- A binding has been read from a payload of the view. -/
theorem stated_of_build (hd : (build file text tokenized handlers).document = some d)
    (hb : d.bindings[k]? = some b) :
    Stated file tokenized.tokens ⟨b.handler, b.expression, b.itemAlias⟩ := by
  obtain ⟨x, hx, -, -, hparsed⟩ := exists_placed hd hb
  rw [hparsed]
  exact (Machine.sourced_run file handlers tokenized.tokens).stated x (List.mem_of_getElem? hx)

end

end ViewLint
