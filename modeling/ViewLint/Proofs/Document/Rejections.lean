import ViewLint.Proofs.Document.Kinds
import ViewLint.Proofs.Document.Refinement

/-!
# Payloads that cannot be read

A payload that cannot be read is reported and does no more: the view is built as if the payload were
not there, and what else is reported is the same, in the same order.  There is one such report for
each payload that building meets.  It meets all of them if the view has a document, and else those
before the tag at fault.

## Main definitions

* `Element.cleaned`, `Token.cleaned`, `Tokenized.cleaned` — without the payloads that cannot be
  read.
* `Builder.settled` — a builder that has not reported any payload.
* `outcome` — the builder at the end of a view, with all that has been reported.
* `Builder.Rejects` — how far two builders differ in the reports on payloads.
* `met` — the tokens before the tag at fault.

## Main results

* `Builder.settled_element`, `Builder.settled_directive` — what an element without those payloads
  and a directive do to a builder that has not reported any.
* `Nest.step_cleaned`, `Nest.run_cleaned` — the same for a token and for all tokens.
* `Nest.rejects_step`, `Nest.rejects_run` — which payloads a token and all tokens report.
* `payload_errors_are_local` — what becomes of a view without the payloads that cannot be read.
-/

namespace ViewLint

open Markup

/-! ### Payloads -/

section

variable [ScriptParser]

/-- Whether the bindings of a payload can be read. -/
def Payload.isReadable (p : Payload) : Bool := (payloadBindings p).isOk

/-- An element without the payloads that cannot be read. -/
def Element.cleaned (e : Element) : Element :=
  { e with bindings := e.bindings.filter Payload.isReadable }

/-- A token without the payloads that cannot be read. -/
def Token.cleaned : Token → Token
  | .element e => .element e.cleaned
  | .directive d => .directive d

/-- A view without the payloads that cannot be read. -/
def Markup.Tokenized.cleaned (z : Tokenized) : Tokenized :=
  { z with tokens := z.tokens.map Token.cleaned }

/-- The payloads that a token has for building: those of an end tag do not count. -/
def Token.payloads : Token → List Payload
  | .element e => if e.type = .stop then [] else e.bindings
  | .directive _ => []

/-- A payload that cannot be read makes one diagnostic, on itself and of a kind of its own. -/
theorem parsePayload_cases (file : String) (p : Payload) :
    (p.isReadable = true ∧ ∃ found, parsePayload file p = .ok found) ∨
    (p.isReadable = false ∧ ∃ d, parsePayload file p = .error d ∧ d.isOf .scriptError = true ∧
      d.location = some p.location) := by
  unfold Payload.isReadable parsePayload
  cases payloadBindings p with
  | ok found => exact .inl ⟨rfl, found, rfl⟩
  | error e => exact .inr ⟨rfl, _, rfl, beq_self_eq_true _, rfl⟩

/-- Each payload that cannot be read makes a diagnostic on itself. -/
theorem location_unreadable (file : String) (ps : List Payload) :
    (Machine.unreadable file ps).map (·.location) =
      (ps.filter (!·.isReadable)).map fun p => some p.location := by
  induction ps with
  | nil => rfl
  | cons p ps ih =>
    unfold Machine.unreadable at ih ⊢
    rcases parsePayload_cases file p with ⟨hp, found, hfound⟩ | ⟨hp, d, hd, -, hlocation⟩
    · rw [List.filterMap_cons_none (by rw [hfound]), List.filter_cons_of_neg (by simp [hp]), ih]
    · rw [List.filterMap_cons_some (by rw [hd]), List.filter_cons_of_pos (by simp [hp]),
        List.map_cons, List.map_cons, ih, hlocation]

/-- The bindings of some payloads all come from those that can be read. -/
theorem readable_filter (file : String) (ps : List Payload) :
    Machine.readable file (ps.filter Payload.isReadable) = Machine.readable file ps := by
  induction ps with
  | nil => rfl
  | cons p ps ih =>
    unfold Machine.readable at ih ⊢
    rcases parsePayload_cases file p with ⟨hp, found, -⟩ | ⟨hp, d, hd, -⟩
    · rw [List.filter_cons_of_pos hp, List.flatMap_cons, List.flatMap_cons, ih]
    · rw [List.filter_cons_of_neg (by simp [hp]), List.flatMap_cons, hd, ih]
      rfl

theorem unreadable_filter (file : String) (ps : List Payload) :
    Machine.unreadable file (ps.filter Payload.isReadable) = [] := by
  refine List.filterMap_eq_nil_iff.mpr ?_
  intro p hmem
  rcases parsePayload_cases file p with ⟨-, found, hfound⟩ | ⟨hp, -⟩
  · rw [hfound]
  · simp [hp] at hmem

theorem isOf_of_mem_unreadable {file : String} {ps : List Payload} {d : Diagnostic}
    (h : d ∈ Machine.unreadable file ps) : d.isOf .scriptError = true := by
  obtain ⟨p, -, hp⟩ := List.mem_filterMap.mp h
  rcases parsePayload_cases file p with ⟨-, found, hfound⟩ | ⟨-, d', hd', hkind, -⟩
  · rw [hfound] at hp
    cases hp
  · rw [hd'] at hp
    cases hp
    exact hkind

/-- Why there is no tree, without the payloads that cannot be read. -/
def Incomplete.cleaned : Incomplete → Incomplete
  | .unbalanced location => .unbalanced location
  | .tooDeep e => .tooDeep e.cleaned

end

/-! ### One token -/

namespace Builder

/-- A builder that has not reported any payload. -/
def settled (b : Builder) : Builder :=
  { b with diagnostics := b.diagnostics.filter fun d => !d.isOf .scriptError }

theorem settled_report (b : Builder) (kind : Kind) (hkind : kind.code ≠ Kind.scriptError.code)
    (location : Option Location) (arguments : List String) :
    (b.report kind location arguments).settled = b.settled.report kind location arguments := by
  have hother :
      (Diagnostic.ofKind kind b.document.file location arguments).isOf .scriptError = false :=
    beq_false_of_ne hkind
  simp [settled, report, List.filter_append, hother]

theorem settled_payloads [ScriptParser] (b : Builder) (e : Element) :
    b.settled.payloads e.cleaned.bindings =
      ((b.payloads e.bindings).1, (b.payloads e.bindings).2.settled) := by
  have hnone : (Machine.unreadable b.document.file e.bindings).filter
      (fun d => !d.isOf .scriptError) = [] := by
    rw [List.filter_eq_nil_iff]
    intro d hd
    simp [isOf_of_mem_unreadable hd]
  rw [Machine.payloads_eq, Machine.payloads_eq]
  simp [settled, Element.cleaned, readable_filter, unreadable_filter, hnone]

theorem settled_checkComment [ScriptParser] (b : Builder) (e : Element)
    (found : List ParsedBinding) :
    (b.checkComment e found).settled = b.settled.checkComment e.cleaned found := by
  unfold checkComment
  rw [show e.cleaned.isVirtual = e.isVirtual from rfl]
  split
  · exact b.settled_report _ (by decide) _ _
  · rfl

theorem settled_checkDeclared [ScriptParser] (b : Builder) (e : Element)
    (found : List ParsedBinding) :
    (b.checkDeclared e found).settled = b.settled.checkDeclared e.cleaned found := by
  unfold checkDeclared
  rw [show b.settled.declaredOf found = b.declaredOf found from rfl]
  dsimp only
  split
  · exact b.settled_report _ (by decide) _ _
  · rfl

theorem settled_addNode (b : Builder) (parent : NodeId) (kind : NodeKind) :
    b.settled.addNode parent kind =
      ((b.addNode parent kind).1, (b.addNode parent kind).2.settled) := rfl

theorem settled_addBindings (b : Builder) (node : NodeId) (parent : Option BindingId)
    (found : List ParsedBinding) :
    (b.addBindings node parent found).settled = b.settled.addBindings node parent found := by
  induction found generalizing b with
  | nil => rfl
  | cons p found ih => exact ih _

theorem settled_generating? (b : Builder) (first : BindingId) (found : List ParsedBinding) :
    b.settled.generating? first found = b.generating? first found := by
  rw [Machine.generating?_eq, Machine.generating?_eq]
  rfl

/-- An element does the same without the payloads that cannot be read. -/
theorem settled_element [ScriptParser] (b : Builder) (current : NodeId) (context : Option BindingId)
    (e : Element) :
    b.settled.element current context e.cleaned =
      ((b.element current context e).1, (b.element current context e).2.settled) := by
  unfold element
  rw [settled_payloads]
  generalize b.payloads e.bindings = read
  obtain ⟨found, b⟩ := read
  dsimp only
  split
  · rfl
  · rw [← settled_checkComment, ← settled_checkDeclared]
    generalize (b.checkComment e found).checkDeclared e found = b
    have hcontent : (⟨e.cleaned.tag, e.cleaned.location,
        (List.range found.length).map (b.settled.document.bindings.size + ·), e.cleaned.isVirtual,
        decide (1 < (b.settled.declaredOf found).length)⟩ : BindingNode) =
      ⟨e.tag, e.location, (List.range found.length).map (b.document.bindings.size + ·), e.isVirtual,
        decide (1 < (b.declaredOf found).length)⟩ := rfl
    rw [hcontent, settled_addNode]
    generalize b.addNode current _ = added
    obtain ⟨node, b'⟩ := added
    exact Prod.ext (Prod.ext rfl (congrArg (·.or context) (b'.settled_generating? _ found)))
      (b'.settled_addBindings _ _ _).symm

theorem settled_directive (b : Builder) (current : NodeId) (d : Directive) :
    b.settled.directive current d =
      ((b.directive current d).1, (b.directive current d).2.settled) := by
  cases d with
  | imports content => rfl
  | context location type => rfl
  | lint location keys enable => rfl
  | viewmodel location type =>
    unfold directive viewmodel
    dsimp only
    rw [show b.settled.document = b.document from rfl]
    cases b.document.viewmodel? with
    | none => rfl
    | some _ =>
      have hreport := settled_report { b with viewmodels := b.viewmodels ++ [type] }
        .multipleViewmodelReferences (by decide) (some location) []
      dsimp only
      rw [← settled_addNode, hreport]
      rfl

theorem settled_reportIncomplete [ScriptParser] (b : Builder) (i : Incomplete) :
    (b.reportIncomplete i).settled = b.settled.reportIncomplete i.cleaned := by
  cases i with
  | unbalanced location => exact b.settled_report _ (by decide) _ _
  | tooDeep e => exact b.settled_report _ (by decide) _ _

theorem settled_finish (b : Builder) : b.finish.settled = b.settled.finish := by
  have hfold (types : List TypeReference) (b : Builder) :
      (types.foldl checkViewmodel b).settled = types.foldl checkViewmodel b.settled := by
    induction types generalizing b with
    | nil => rfl
    | cons type types ih =>
      rw [List.foldl_cons, List.foldl_cons, ih]
      congr 1
      unfold checkViewmodel
      rw [show b.settled.document = b.document from rfl]
      split
      · rfl
      · exact b.settled_report _ (by decide) _ _
  unfold finish
  dsimp only
  rw [hfold, show b.settled.document = b.document from rfl]
  split
  · rw [b.settled_report _ (by decide)]
    rfl
  · rfl

end Builder

/-! ### All tokens -/

section

variable [ScriptParser]

/-- A frame whose element is without the payloads that cannot be read. -/
def Frame.cleaned (f : Frame) : Frame :=
  { f with opened := f.opened.map Element.cleaned }

/-- What is left of a result without the payloads that cannot be read. -/
def cleanedResult {α β : Type} (f : α → β) :
    Except (Incomplete × Builder) α → Except (Incomplete × Builder) β
  | .ok a => .ok (f a)
  | .error (i, b) => .error (i.cleaned, b.settled)

namespace Nest

/-- Frames and a builder without the payloads that cannot be read. -/
def cleaned (s : Nest) : Nest :=
  ⟨s.frame.cleaned, s.around.map Frame.cleaned, s.builder.settled⟩

/-- A token does the same without the payloads that cannot be read. -/
theorem step_cleaned (s : Nest) (t : Token) :
    s.cleaned.step t.cleaned = cleanedResult cleaned (s.step t) := by
  cases t with
  | directive d =>
    simp only [Token.cleaned, step]
    rw [show s.cleaned.builder = s.builder.settled from rfl, Builder.settled_directive]
    rfl
  | element e =>
    simp only [Token.cleaned, step]
    rw [show e.cleaned.type = e.type from rfl]
    cases e.type with
    | stop =>
      simp only [cleaned, Frame.cleaned]
      cases s.frame.opened with
      | none => rfl
      | some o =>
        cases s.around with
        | nil => rfl
        | cons f fs =>
          rw [Option.map_some, List.map_cons]
          dsimp only
          rw [show (o.cleaned.tag == e.cleaned.tag) = (o.tag == e.tag) from rfl]
          split <;> rfl
    | empty =>
      dsimp only
      rw [show s.cleaned.builder = s.builder.settled from rfl, Builder.settled_element]
      rfl
    | start =>
      dsimp only
      rw [show s.cleaned.frame.depth = s.frame.depth from rfl]
      split
      · rfl
      · unfold enter
        rw [show s.cleaned.builder = s.builder.settled from rfl, Builder.settled_element]
        rfl

theorem close_cleaned (s : Nest) :
    s.cleaned.close = cleanedResult Builder.settled s.close := by
  unfold close
  simp only [cleaned, Frame.cleaned]
  cases s.frame.opened with
  | none => rfl
  | some e => rfl

/-- All tokens do the same without the payloads that cannot be read. -/
theorem run_cleaned (s : Nest) (ts : List Token) :
    s.cleaned.run (ts.map Token.cleaned) = cleanedResult Builder.settled (s.run ts) := by
  induction ts generalizing s with
  | nil => exact s.close_cleaned
  | cons t ts ih =>
    rw [List.map_cons, run_cons, run_cons, step_cleaned]
    cases s.step t with
    | error failure => rfl
    | ok s' => exact ih s'

end Nest

/-- The builder at the end of a view, with all that has been reported. -/
def outcome (file text : String) (tokenized : Tokenized) (handlers : Handlers) :
    Builder :=
  match buildTokens file text tokenized handlers with
  | .error (incomplete, b) => b.reportIncomplete incomplete
  | .ok (b, _) => b.finish

/-- A view has a document if its tokens are read to the end, and the diagnostics that the lint
directives let pass are those of the outcome. -/
theorem build_eq_outcome (file text : String) (tokenized : Tokenized)
    (handlers : Handlers) :
    build file text tokenized handlers =
      ⟨((buildTokens file text tokenized handlers).toOption.map fun _ =>
        (outcome file text tokenized handlers).document),
        (outcome file text tokenized handlers).allowed⟩ := by
  unfold build outcome
  cases buildTokens file text tokenized handlers with
  | error failure => rfl
  | ok r => rfl

theorem buildTokens_cleaned (file text : String) (tokenized : Tokenized)
    (handlers : Handlers) :
    (buildTokens file text tokenized.cleaned handlers).map (·.1) =
      cleanedResult (fun r => r.1.settled) (buildTokens file text tokenized handlers) := by
  have hrun := Nest.run_cleaned (.initial file text tokenized.dialect handlers) tokenized.tokens
  rw [← buildTokens_eq_run] at hrun
  refine (buildTokens_eq_run file text tokenized.cleaned handlers).trans (hrun.trans ?_)
  cases buildTokens file text tokenized handlers with
  | error failure => rfl
  | ok r => rfl

theorem outcome_cleaned (file text : String) (tokenized : Tokenized)
    (handlers : Handlers) :
    outcome file text tokenized.cleaned handlers =
      (outcome file text tokenized handlers).settled := by
  have hrun := buildTokens_cleaned file text tokenized handlers
  unfold outcome
  revert hrun
  generalize buildTokens file text tokenized handlers = r
  generalize buildTokens file text tokenized.cleaned handlers = r'
  intro hrun
  cases r with
  | error failure =>
    cases r' with
    | ok r' => cases hrun
    | error failure' =>
      cases hrun
      exact (Builder.settled_reportIncomplete _ _).symm
  | ok r =>
    cases r' with
    | error failure' => cases hrun
    | ok r' =>
      have hr : r'.1 = r.1.settled := Except.ok.inj hrun
      dsimp only
      rw [hr, Builder.settled_finish]

end

/-! ### Rejections -/

namespace Builder

/-- What has been reported on payloads. -/
def rejections (b : Builder) : List Diagnostic := b.diagnostics.filter (·.isOf .scriptError)

theorem rejections_report (b : Builder) (kind : Kind) (hkind : kind.code ≠ Kind.scriptError.code)
    (location : Option Location) (arguments : List String) :
    (b.report kind location arguments).rejections = b.rejections := by
  have hother :
      (Diagnostic.ofKind kind b.document.file location arguments).isOf .scriptError = false :=
    beq_false_of_ne hkind
  simp [rejections, report, List.filter_append, hother]

/-- A builder that is for the same file as another, and has reported the same payloads and some
more. -/
structure Rejects (b : Builder) (ds : List Diagnostic) (b' : Builder) : Prop where
  file_eq : b'.document.file = b.document.file
  rejections_eq : b'.rejections = b.rejections ++ ds

theorem Rejects.trans {b₁ b₂ b₃ : Builder} {ds ds' : List Diagnostic} (h : Rejects b₁ ds b₂)
    (h' : Rejects b₂ ds' b₃) : Rejects b₁ (ds ++ ds') b₃ :=
  ⟨h'.file_eq.trans h.file_eq, by rw [h'.rejections_eq, h.rejections_eq, List.append_assoc]⟩

theorem Rejects.andThen {b₁ b₂ b₃ : Builder} {ds : List Diagnostic} (h : Rejects b₁ ds b₂)
    (h' : Rejects b₂ [] b₃) : Rejects b₁ ds b₃ := by
  simpa using h.trans h'

/-- Other than by reports, diagnostics do not change. -/
theorem rejects_of_eq {b b' : Builder} (hfile : b'.document.file = b.document.file)
    (hdiagnostics : b'.diagnostics = b.diagnostics) : Rejects b [] b' :=
  ⟨hfile, by rw [rejections, hdiagnostics, List.append_nil, rejections]⟩

theorem rejects_report (b : Builder) (kind : Kind) (hkind : kind.code ≠ Kind.scriptError.code)
    (location : Option Location) (arguments : List String) :
    Rejects b [] (b.report kind location arguments) :=
  ⟨rfl, by rw [b.rejections_report kind hkind, List.append_nil]⟩

theorem rejects_payloads [ScriptParser] (b : Builder) (ps : List Payload) :
    Rejects b (Machine.unreadable b.document.file ps) (b.payloads ps).2 := by
  have hall : (Machine.unreadable b.document.file ps).filter (·.isOf .scriptError) =
      Machine.unreadable b.document.file ps :=
    List.filter_eq_self.mpr fun d hd => isOf_of_mem_unreadable hd
  rw [Machine.payloads_eq]
  exact ⟨rfl, by rw [rejections, List.filter_append, hall, rejections]⟩

theorem rejects_checkComment (b : Builder) (e : Element) (found : List ParsedBinding) :
    Rejects b [] (b.checkComment e found) := by
  unfold checkComment
  split
  · exact b.rejects_report _ (by decide) _ _
  · exact rejects_of_eq rfl rfl

theorem rejects_checkDeclared (b : Builder) (e : Element) (found : List ParsedBinding) :
    Rejects b [] (b.checkDeclared e found) := by
  unfold checkDeclared
  dsimp only
  split
  · exact b.rejects_report _ (by decide) _ _
  · exact rejects_of_eq rfl rfl

theorem rejects_addBindings (b : Builder) (node : NodeId) (parent : Option BindingId)
    (found : List ParsedBinding) : Rejects b [] (b.addBindings node parent found) := by
  induction found generalizing b with
  | nil => exact rejects_of_eq rfl rfl
  | cons p found ih =>
    have hmore := ih { b with document := b.document.addBinding p node parent }
    exact ⟨hmore.file_eq, hmore.rejections_eq⟩

/-- An element reports each of its payloads that cannot be read. -/
theorem rejects_element [ScriptParser] (b : Builder) (current : NodeId) (context : Option BindingId)
    (e : Element) :
    Rejects b (Machine.unreadable b.document.file e.bindings) (b.element current context e).2 := by
  have hread := b.rejects_payloads e.bindings
  unfold element
  generalize b.payloads e.bindings = read at hread
  obtain ⟨found, b'⟩ := read
  dsimp only at hread ⊢
  split
  · exact hread
  · have hchecked := hread.andThen
      ((b'.rejects_checkComment e found).andThen (rejects_checkDeclared _ e found))
    generalize (b'.checkComment e found).checkDeclared e found = b'' at hchecked
    have hadded (node : NodeId) (kind : NodeKind) :
        Rejects b'' [] ((b''.addNode current kind).2.addBindings node context found) :=
      have hbindings := rejects_addBindings (b''.addNode current kind).2 node context found
      ⟨hbindings.file_eq, hbindings.rejections_eq⟩
    exact hchecked.andThen (hadded _ _)

theorem rejects_directive (b : Builder) (current : NodeId) (d : Directive) :
    Rejects b [] (b.directive current d).2 := by
  cases d with
  | imports content => exact rejects_of_eq rfl rfl
  | context location type => exact rejects_of_eq rfl rfl
  | lint location keys enable => exact rejects_of_eq rfl rfl
  | viewmodel location type =>
    unfold directive viewmodel
    dsimp only
    split
    · exact rejects_of_eq rfl rfl
    · have hreport := rejects_report { b with viewmodels := b.viewmodels ++ [type] }
        .multipleViewmodelReferences (by decide) (some location) []
      exact ⟨hreport.file_eq, hreport.rejections_eq⟩

theorem rejects_reportIncomplete (b : Builder) (i : Incomplete) :
    Rejects b [] (b.reportIncomplete i) := by
  cases i with
  | unbalanced location => exact b.rejects_report _ (by decide) _ _
  | tooDeep e => exact b.rejects_report _ (by decide) _ _

theorem rejects_finish (b : Builder) : Rejects b [] b.finish := by
  have hfold (types : List TypeReference) (b : Builder) :
      Rejects b [] (types.foldl checkViewmodel b) := by
    induction types generalizing b with
    | nil => exact rejects_of_eq rfl rfl
    | cons type types ih =>
      rw [List.foldl_cons]
      refine Rejects.andThen ?_ (ih _)
      unfold checkViewmodel
      split
      · exact rejects_of_eq rfl rfl
      · exact b.rejects_report _ (by decide) _ _
  unfold finish
  dsimp only
  split
  · exact (b.rejects_report _ (by decide) _ _).andThen (hfold _ _)
  · exact hfold _ _

end Builder

/-- The tokens that building meets: all of them, or those before the tag at fault. -/
def met : List Element → List Token → List Token
  | _, [] => []
  | stack, t :: ts =>
    match stackTag stack t with
    | .ok stack' => t :: met stack' ts
    | .error _ => []

/-- Building meets all tokens of a view whose tags are balanced. -/
theorem Balanced.met_eq {stack : List Element} {ts : List Token} (h : Balanced stack ts) :
    met stack ts = ts := by
  induction h with
  | nil => rfl
  | directive d h ih => simp [met, stackTag, ih]
  | start htype hdepth h ih => simp [met, stackTag, htype, hdepth, ih]
  | stop htype htag h ih => simp [met, stackTag, htype, htag, ih]
  | empty htype h ih => simp [met, stackTag, htype, ih]

/-- The builder of a result. -/
def resultBuilder : Except (Incomplete × Builder) Builder → Builder
  | .ok b => b
  | .error (_, b) => b

namespace Nest

/-- A token reports each of its payloads that cannot be read. -/
theorem rejects_step [ScriptParser] {s s' : Nest} {t : Token} (h : s.step t = .ok s') :
    s.builder.Rejects (Machine.unreadable s.builder.document.file t.payloads) s'.builder := by
  cases t with
  | directive d =>
    cases h
    exact s.builder.rejects_directive _ d
  | element e =>
    unfold step at h
    cases htype : e.type with
    | stop =>
      simp only [htype] at h
      simp only [Token.payloads, htype, if_true]
      split at h
      · split at h
        · cases h
          exact Builder.rejects_of_eq rfl rfl
        · cases h
      · cases h
    | empty =>
      simp only [htype] at h
      cases h
      simp only [Token.payloads, htype]
      exact s.builder.rejects_element _ _ e
    | start =>
      simp only [htype] at h
      split at h
      · cases h
      · cases h
        simp only [Token.payloads, htype]
        exact s.builder.rejects_element _ _ e

/-- A token at which building stops reports nothing yet. -/
theorem builder_of_step [ScriptParser] {s : Nest} {t : Token} {i : Incomplete} {b : Builder}
    (h : s.step t = .error (i, b)) : b = s.builder := by
  cases t with
  | directive d => cases h
  | element e =>
    unfold step at h
    dsimp only at h
    split at h
    · split at h
      · split at h
        · cases h
        · cases h
          rfl
      · cases h
        rfl
    · cases h
    · split at h
      · cases h
        rfl
      · cases h

/-- All tokens report each payload that cannot be read of those that building meets. -/
theorem rejects_run [ScriptParser] {s : Nest} {stack : List Element}
    (h : Stacked s.frame s.around stack) (ts : List Token) :
    s.builder.Rejects
      (Machine.unreadable s.builder.document.file ((met stack ts).flatMap Token.payloads))
      (resultBuilder (s.run ts)) := by
  induction ts generalizing s stack with
  | nil =>
    rw [run_nil, close]
    split
    · exact Builder.rejects_of_eq rfl rfl
    · exact Builder.rejects_of_eq rfl rfl
  | cons t ts ih =>
    have hagrees := h.agrees_step s.builder t
    rw [run_cons]
    change Agrees _ _ (s.step t) at hagrees
    cases hstack : stackTag stack t with
    | error m =>
      simp only [met, hstack]
      cases hstep : s.step t with
      | ok s' =>
        rw [hstack, hstep] at hagrees
        exact hagrees.elim
      | error failure =>
        obtain ⟨i, b⟩ := failure
        rw [builder_of_step hstep]
        exact Builder.rejects_of_eq rfl rfl
    | ok stack' =>
      simp only [met, hstack]
      cases hstep : s.step t with
      | error failure =>
        rw [hstack, hstep] at hagrees
        exact hagrees.elim
      | ok s' =>
        rw [hstack, hstep] at hagrees
        have hfirst := rejects_step hstep
        have hmore := ih hagrees
        rw [hfirst.file_eq] at hmore
        rw [List.flatMap_cons, Machine.unreadable, List.filterMap_append]
        exact hfirst.trans hmore

end Nest

/-- At the end of a view each payload that cannot be read has been reported, of those that building
has met. -/
theorem rejections_outcome [ScriptParser] (file text : String) (tokenized : Tokenized)
    (handlers : Handlers) :
    (outcome file text tokenized handlers).rejections =
      Machine.unreadable file ((met [] tokenized.tokens).flatMap Token.payloads) := by
  have hstacked : Stacked ⟨Document.root, none, none, 0⟩ [] [] := ⟨rfl, rfl, rfl⟩
  have hrun := Nest.rejects_run (s := .initial file text tokenized.dialect handlers) hstacked
    tokenized.tokens
  rw [← buildTokens_eq_run] at hrun
  refine Eq.trans ?_ hrun.rejections_eq
  unfold outcome
  cases buildTokens file text tokenized handlers with
  | error failure =>
    exact (failure.2.rejects_reportIncomplete failure.1).rejections_eq.trans (List.append_nil _)
  | ok r => exact r.1.rejects_finish.rejections_eq.trans (List.append_nil _)

/-- **Payloads that cannot be read do no more than to be reported.**  Without them a view has a
document just if it has one with them, which is then the same, and in any case the outcome differs
in the reports on these payloads only.  There is one report on each of them that building meets, in
their order, and it meets all if there is a document.  The diagnostics of a view are those of the
outcome that the lint directives let pass. -/
theorem payload_errors_are_local [ScriptParser] (file text : String) (tokenized : Tokenized)
    (handlers : Handlers) :
    let all := outcome file text tokenized handlers
    let rejected := ((met [] tokenized.tokens).flatMap Token.payloads).filter (!·.isReadable)
    (build file text tokenized.cleaned handlers).document =
      (build file text tokenized handlers).document ∧
    outcome file text tokenized.cleaned handlers =
      { all with diagnostics := all.diagnostics.filter fun d => !d.isOf .scriptError } ∧
    (all.diagnostics.filter (·.isOf .scriptError)).map (·.location) =
      rejected.map (fun p => some p.location) ∧
    (build file text tokenized handlers).diagnostics = all.allowed ∧
    (build file text tokenized.cleaned handlers).diagnostics =
      (outcome file text tokenized.cleaned handlers).allowed ∧
    ((build file text tokenized handlers).document.isSome →
      met [] tokenized.tokens = tokenized.tokens) := by
  intro all rejected
  have houtcome := outcome_cleaned file text tokenized handlers
  refine ⟨?_, houtcome, ?_, ?_, ?_, ?_⟩
  · have hrun := buildTokens_cleaned file text tokenized handlers
    rw [build_eq_outcome, build_eq_outcome, houtcome]
    dsimp only
    revert hrun
    generalize buildTokens file text tokenized handlers = r
    generalize buildTokens file text tokenized.cleaned handlers = r'
    intro hrun
    -- both are read to the end, or neither is
    cases r with
    | error failure =>
      cases r' with
      | ok r' => cases hrun
      | error failure' => rfl
    | ok r =>
      cases r' with
      | error failure' => cases hrun
      | ok r' => rfl
  · change all.rejections.map _ = _
    rw [rejections_outcome, location_unreadable]
  · rw [build_eq_outcome]
  · rw [build_eq_outcome]
  · intro hd
    exact (balanced_of_document hd).met_eq

/-- Payloads that cannot be read beside one that can, and on an element of their own. -/
def rejectedTags : Tokenized :=
  ⟨[.element ⟨"b", .start, ⟨default, default, 0, 40⟩,
      [⟨⟨default, default, 14, 15⟩, "+"⟩, ⟨⟨default, default, 30, 37⟩, "text: a"⟩], false⟩,
    .element ⟨"br", .empty, ⟨default, default, 40, 58⟩, [⟨⟨default, default, 55, 56⟩, "("⟩], false⟩,
    .element ⟨"b", .stop, ⟨default, default, 58, 62⟩, [], false⟩], .html⟩

theorem payload_errors_are_local_rejectedTags :
    (build "view.html" "" rejectedTags ⟨.empty, .empty⟩).document.isSome ∧
    met [] rejectedTags.tokens = rejectedTags.tokens ∧
    (outcome "view.html" "" rejectedTags ⟨.empty, .empty⟩).diagnostics.map (·.code) =
      ["KO0004", "KO0004", "KO0002"] ∧
    (outcome "view.html" "" rejectedTags.cleaned ⟨.empty, .empty⟩).diagnostics.map (·.code) =
      ["KO0002"] := by
  obtain ⟨-, houtcome, -, -, -, hmet⟩ :=
    payload_errors_are_local "view.html" "" rejectedTags ⟨.empty, .empty⟩
  have hd : (build "view.html" "" rejectedTags ⟨.empty, .empty⟩).document.isSome := by
    decide +kernel
  refine ⟨hd, hmet hd, by decide +kernel, ?_⟩
  rw [houtcome]
  decide +kernel

/-- A payload that cannot be read, behind an end tag without a start tag. -/
def strayTags : Tokenized :=
  ⟨[.element ⟨"a", .stop, ⟨default, default, 0, 4⟩, [], false⟩,
    .element ⟨"br", .empty, ⟨default, default, 4, 22⟩, [⟨⟨default, default, 19, 20⟩, "+"⟩], false⟩],
    .html⟩

/-- Building stops at the end tag, and nothing is reported on the payload. -/
theorem payload_error_is_not_met :
    (strayTags.tokens.flatMap Token.payloads).map (·.isReadable) = [false] ∧
    (outcome "view.html" "" strayTags ⟨.empty, .empty⟩).diagnostics.map (·.code) = ["KO0010"] ∧
    (outcome "view.html" "" strayTags.cleaned ⟨.empty, .empty⟩).diagnostics =
      (outcome "view.html" "" strayTags ⟨.empty, .empty⟩).diagnostics := by
  decide +kernel

end ViewLint
