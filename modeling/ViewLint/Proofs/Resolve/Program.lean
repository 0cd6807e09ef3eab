import ViewLint.Proofs.Document.Provenance
import ViewLint.Proofs.Resolve.Outcome

/-!
# The program that is checked

The program of a resolution is its opening and its declarations.  When resolution has succeeded,
these declare every context of the outcome, and the value of every binding whose element hands a
context to its content, in the context that the element is assigned.

## Main definitions

* `Resolved.Checks` — what becomes of a binding in a program.

## Main results

* `Engine.Outcome.code_eq` — the text of the program.
* `Engine.Outcome.checks` — every binding is evaluated once or not at all.
* `resolve_checks_bindings` — the program is well-scoped, and checks what can be checked.
-/

namespace ViewLint

variable {U : Type}

/-- What becomes of a binding: it is evaluated once, in the context that its element is assigned,
if the element hands a context to its content, and not at all if nothing is known of the
content. -/
def Resolved.Checks (r : Resolved) (cs : List Declaration) (b : Binding) : Prop :=
  match r.outgoing.get? b.node with
  | some (.context _) => ∃ c members, r.assignments.get? b.node = some (.context c) ∧
      cs.filter (·.binding? = some b.id) = [.transformation b c members]
  | some .unknown => cs.filter (·.binding? = some b.id) = []
  | none => False

namespace Engine

variable {o : Oracle U} {d : Document} {typeLibrary : String} {r : Resolved}
  {last e : Engine U} {unit : U}

theorem Outcome.pending_eq (h : Outcome o d typeLibrary r last e unit) :
    e.probe.pending = "" := by
  cases h.request with
  | findings _ hpending => exact hpending

/-- The text of the program is its opening and its declarations. -/
theorem Outcome.code_eq (h : Outcome o d typeLibrary r last e unit) :
    r.probe.code = (d.opening typeLibrary).pending ++ textOf last.probe.declarations := by
  have hprogram := h.finished.reach.traced.program
  rw [h.pending_eq, String.append_empty] at hprogram
  rw [h.probe_eq, h.last_probe]
  exact hprogram

/-- The evaluation of a binding stands in the context that its element is assigned, and nothing
else evaluates the binding. -/
theorem Listed.filter_transformation (hl : e.Listed d) (hd : d.WellFormed) {b : Binding}
    {n : NodeId} (hb : d.bindings[b.id]? = some b) (hn : b.id ∈ d.bindingsOf n)
    (heval : e.Evaluated d n) :
    ∃ c members, e.assignments.get? n = some (.context c) ∧
      e.probe.declarations.filter (·.binding? = some b.id) = [.transformation b c members] := by
  obtain ⟨b', c, members, hmem, hid⟩ := heval b.id hn
  obtain ⟨hb', n', type, hn', hassign, -⟩ := hl.evaluated b' c members hmem
  -- the binding with this number is the given one, and it has one node
  rw [hid, hb, Option.some_inj] at hb'
  subst hb'
  obtain rfl : n' = n := hd.node_unique hn' hn
  exact ⟨c, members, hassign, hl.wellScoped.filter_binding? hmem rfl⟩

/-- Where nothing is known of the content of an element, no scope of the element is known. -/
theorem Outcome.not_known (h : Outcome o d typeLibrary r last e unit) {n : NodeId}
    {c : ContextId} {type : String} {members : List String}
    (hout : r.outgoing.get? n = some .unknown)
    (hassign : e.assignments.get? n = some (.context c)) :
    e.scopes.get? c ≠ some (.known type members) := by
  rw [← h.assignments_eq] at hassign
  intro hknown
  cases h.hands hassign hout with
  | dynamic hs => cases hs.symm.trans hknown

theorem Outcome.checks (hd : d.WellFormed) (h : Outcome o d typeLibrary r last e unit)
    {b : Binding} (hb : d.bindings[b.id]? = some b) (hn : b.id ∈ d.bindingsOf b.node) :
    r.Checks last.probe.declarations b := by
  have hl := h.finished.reach.listed
  have hnode : (d.bindingNode? b.node).isSome := by
    cases hkind : d.bindingNode? b.node with
    | some content => rfl
    | none =>
      rw [Document.bindingsOf, hkind] at hn
      cases hn
  obtain ⟨a, ha⟩ := Option.isSome_iff_exists.mp ((h.finished.handed b.node).mpr hnode)
  have hout : r.outgoing.get? b.node = some a := h.outgoing_eq ▸ ha
  rw [Resolved.Checks, hout, h.last_probe]
  cases a with
  | context c' =>
    obtain ⟨c, members, hassign, hfilter⟩ :=
      hl.filter_transformation hd hb hn (hl.handed b.node c' ha)
    exact ⟨c, members, h.assignments_eq ▸ hassign, hfilter⟩
  | unknown =>
    -- bindings are only evaluated where the scope of their element is known
    refine List.filter_eq_nil_iff.mpr ?_
    intro x hx hbinding
    obtain ⟨b', c, members, rfl, hid⟩ := binding?_eq_some.mp (of_decide_eq_true hbinding)
    obtain ⟨-, n, type, hn', hassign, hknown⟩ := hl.evaluated b' c members hx
    rw [hid] at hn'
    obtain rfl : n = b.node := hd.node_unique hn' hn
    exact h.not_known hout hassign hknown

end Engine

/-- **The program is well-scoped, and checks every binding that can be checked.**  Behind its
opening it has declarations only.  They give every name once, and refer to names of earlier ones;
they declare the contexts of the outcome and no others; and they evaluate every binding once, in
the context of its element, if something is known of the content of the element, and never
otherwise. -/
theorem resolve_checks_bindings [ScriptParser] (o : Oracle U) {file text : String}
    {tokenized : Markup.Tokenized} {handlers : Handlers} {d : Document}
    (hd : (build file text tokenized handlers).document = some d) (typeLibrary : String)
    {r : Resolved} (hr : resolve o d typeLibrary = .ok r) :
    let cs := (runResolve o d typeLibrary).2.probe.declarations
    r.probe.code = (d.opening typeLibrary).pending ++ textOf cs ∧
    (∀ x ∈ cs, (∀ name ∈ x.names, x.Introduces name) ∧ ∀ name ∈ x.refs, x.Mentions name) ∧
    WellScoped cs ∧
    (∀ c, contextName c ∈ namesOf cs ↔ c < r.contexts.size) ∧
    ∀ b ∈ d.bindings, r.Checks cs b := by
  intro cs
  have hwf := build_wellFormed hd
  rcases runResolve_cases o hwf typeLibrary with ⟨r', e, unit, hr', h⟩ | ⟨f, hf, -⟩
  · cases hr'.symm.trans hr
    have hl := h.finished.reach.listed
    refine ⟨h.code_eq, ?_, ?_, ?_, ?_⟩
    · intro x _
      exact ⟨fun _ hname => Declaration.introduces_of_mem_names hname,
        fun _ hname => Declaration.mentions_of_mem_refs hname⟩
    · change WellScoped (runResolve o d typeLibrary).2.probe.declarations
      rw [h.last_probe]
      exact hl.wellScoped
    · intro c
      change contextName c ∈ namesOf (runResolve o d typeLibrary).2.probe.declarations ↔ _
      rw [h.last_probe, h.contexts_eq]
      exact hl.contextName_mem
    · intro b hb
      obtain ⟨k, hk⟩ := Array.getElem?_of_mem hb
      obtain ⟨rfl, hn⟩ := mem_bindingsOf_of_build hd hk
      exact h.checks hwf hk hn
  · cases hf.symm.trans hr

theorem resolve_checks_bindings_nestedView :
    ∃ d r, (build "view.html" "" nestedView ⟨.empty, .empty⟩).document = some d ∧
      resolve lavishOracle d "lib" = .ok r ∧
      let cs := (runResolve lavishOracle d "lib").2.probe.declarations
      cs.filterMap (·.context?) = [0, 1, 2, 3] ∧ cs.filterMap (·.binding?) = [0, 1] ∧
        WellScoped cs ∧ (∀ c, contextName c ∈ namesOf cs ↔ c < r.contexts.size) ∧
        ∀ b ∈ d.bindings, r.Checks cs b := by
  have hbuilt : ((build "view.html" "" nestedView ⟨.empty, .empty⟩).document.map fun d =>
      let cs := (runResolve lavishOracle d "lib").2.probe.declarations
      (cs.filterMap (·.context?), cs.filterMap (·.binding?))) = some ([0, 1, 2, 3], [0, 1]) := by
    decide +kernel
  obtain ⟨d, hd, hdeclared⟩ := Option.map_eq_some_iff.mp hbuilt
  obtain ⟨hopened, hevaluated⟩ := Prod.mk.inj hdeclared
  rcases runResolve_cases lavishOracle (build_wellFormed hd) "lib" with
    ⟨r, e, unit, hr, -⟩ | ⟨f, -, hfailed⟩
  · obtain ⟨-, -, hscoped, hcontexts, hchecks⟩ := resolve_checks_bindings lavishOracle hd "lib" hr
    exact ⟨d, r, hd, hr, hopened, hevaluated, hscoped, hcontexts, hchecks⟩
  · exact absurd (fun call _ => failure?_lavishOracle call) hfailed.not_answered

end ViewLint
