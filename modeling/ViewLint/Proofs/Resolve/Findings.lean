import ViewLint.Proofs.Document.Places
import ViewLint.Proofs.Probe.Revisions
import ViewLint.Proofs.Resolve.Program

/-!
# Where type errors are reported

The program has a copy of the expression of every binding that it evaluates, and every byte of a
copy is mapped to the byte of the markup that it was copied from.  This stays so while the program
grows, and with every revision that is committed.  So a type error inside a copy is reported at the
bytes of the markup that it is about.

## Main definitions

* `Probe.Faithful` — the copies in a program come from the places of their expressions.

## Main results

* `Probe.Faithful.declare`, `Probe.Faithful.commit` — declarations and revisions keep this.
* `Engine.Reach.probe_induction` — what holds of the program in every state of a resolution.
* `Engine.Reach.faithful` — so the copies are right in every state.
* `Engine.Outcome.locate_eq` — the place of a finding inside a copy.
* `finding_lands_on_expression` — type errors of expressions are reported where they are.
-/

namespace ViewLint

open Text

/-! ### Programs -/

namespace Probe

variable {opening file : String} {p : Probe}

/-- The copies of expressions in the declarations behind an opening come from the places of the
expressions. -/
structure Faithful (opening file : String) (p : Probe) : Prop where
  sound : p.Sound
  markupFile : p.markupFile = file
  copies : ∀ before b c members after,
    p.declarations = before ++ .transformation b c members :: after →
    ∀ i, i < b.expression.text.utf8ByteSize → i < b.expression.location.size →
      p.MapsTo ((opening ++ textOf before ++ evaluationHead b c members).utf8ByteSize + i)
        (b.expression.location.start + i)

/-- A declaration leaves the copies before it where they are, and its own copy stands behind all of
the text. -/
theorem Faithful.declare (h : p.Faithful opening file)
    (hprogram : p.text ++ p.pending = opening ++ textOf p.declarations) (x : Declaration) :
    (p.declare x).Faithful opening file := by
  have hemits := emits_declare p x
  refine ⟨hemits.sound ⟨h.sound.tidy, h.sound.merged, h.sound.file, h.sound.fresh⟩,
    hemits.markupFile.trans h.markupFile, ?_⟩
  intro before b c members after heq i hi hi'
  rw [declarations_declare] at heq
  rcases append_singleton_eq_append_cons heq with ⟨rfl, rfl, -⟩ | ⟨after', -, hold⟩
  · rw [← hprogram]
    exact mapsTo_declare_transformation b c members p h.sound.tidy hi hi'
  · exact hemits.mapsTo h.sound.tidy (h.copies before b c members after' hold i hi hi')

theorem Faithful.commit (h : p.Faithful opening file) : p.commit.2.Faithful opening file := by
  refine ⟨h.sound.commit, h.markupFile, ?_⟩
  intro before b c members after heq i hi hi'
  exact h.sound.mapsTo_commit (h.copies before b c members after heq i hi hi')

theorem faithful_opening (d : Document) (typeLibrary : String) :
    (d.opening typeLibrary).Faithful (d.opening typeLibrary).pending d.file := by
  obtain ⟨t, ht⟩ := Engine.emits_opening d typeLibrary
  refine ⟨ht.sound (sound_initial d.file typeLibrary), ht.markupFile, ?_⟩
  intro before b c members after heq
  rw [Engine.declarations_opening] at heq
  simp at heq

end Probe

/-! ### Resolutions -/

namespace Engine

variable {U : Type} {o : Oracle U} {d : Document} {typeLibrary : String} {e e' : Engine U}

theorem probe_declare (e : Engine U) (x : Declaration) :
    (e.declare x).probe = e.probe.declare x := rfl

/-- An update declares one thing at most. -/
theorem Update.probe_cases (h : Update o d e e') :
    e'.probe = e.probe ∨ ∃ x, e'.probe = e.probe.declare x := by
  cases h with
  | report | bare | hide | learn | assign | leave | keep => exact .inl rfl
  | declareBinding => exact .inr ⟨_, probe_declare e _⟩
  | @openRoot p type => exact .inr ⟨.root e.contexts.size type, rfl⟩
  | @openDirective p q c type => exact .inr ⟨.directive e.contexts.size type c, rfl⟩
  | @openBinding n c b => exact .inr ⟨.bindingContext e.contexts.size b.id, rfl⟩

/-- What declarations and revisions keep holds of the program of every state. -/
theorem Reach.probe_induction {P : Probe → Prop} (h : Reach o d typeLibrary e)
    (hopening : P (d.opening typeLibrary))
    (hdeclare : ∀ p x, p.text ++ p.pending =
      (d.opening typeLibrary).pending ++ textOf p.declarations → P p → P (p.declare x))
    (hcommit : ∀ p, P p → P p.commit.2) : P e.probe := by
  induction h with
  | blank => exact hopening
  | begin frontier _ ih => exact ih
  | update hreach hstep ih =>
    rcases hstep.probe_cases with hsame | ⟨x, hx⟩
    · rw [hsame]
      exact ih
    · rw [hx]
      exact hdeclare _ x hreach.traced.program ih
  | declareScope hreach _ _ ih =>
    rw [probe_declare]
    exact hdeclare _ _ hreach.traced.program ih
  | compile _ _ _ ih => exact hcommit _ ih
  | inspect _ _ _ ih => exact ih

/-- The program of every state is faithful. -/
theorem Reach.faithful (h : Reach o d typeLibrary e) :
    e.probe.Faithful (d.opening typeLibrary).pending d.file :=
  h.probe_induction (Probe.faithful_opening d typeLibrary)
    (fun _ x hprogram hp => hp.declare hprogram x) fun _ hp => hp.commit

theorem locate_congr (h : e'.probe = e.probe) (d : Document) (f : Finding) :
    e'.locate d f = e.locate d f := by
  rw [locate, locate, h]

/-- A place that the merged map sends to the markup, inside the text of the view. -/
theorem locate_eq {f : Finding} {q : Nat} (hwf : e.probe.merged.WellFormed)
    (hsends : e.probe.merged.Sends f.start d.file q) (hq : q + f.length ≤ d.text.utf8ByteSize) :
    e.locate d f = some (.ofRange d.text.toList q (q + f.length)) := by
  obtain ⟨s, hs, hsource, hsegment⟩ := hsends
  have htranslate : e.probe.translate f.start = some ⟨s.source, q, true⟩ :=
    hwf.translate_of_mem hs hsegment
  unfold locate
  rw [htranslate]
  simp only [Option.bind_eq_bind, Option.bind_some, hsource, guard, if_true]
  rw [Nat.min_eq_left (Nat.le_trans (Nat.le_add_right _ _) hq), offsetBehind_of_le hq,
    Nat.min_eq_left hq]
  rfl

variable {r : Resolved} {last : Engine U} {unit : U} {before after : List Declaration}
  {b : Binding} {c : ContextId} {members : List String}

/-- The program has a copy of the expression of a binding that it evaluates. -/
theorem Outcome.exists_copy (h : Outcome o d typeLibrary r last e unit)
    (hb : last.probe.declarations = before ++ .transformation b c members :: after) :
    ∃ tail, r.probe.code =
      ((d.opening typeLibrary).pending ++ textOf before ++ evaluationHead b c members) ++
        (b.expression.text ++ tail) := by
  refine ⟨evaluationTail b c ++ textOf after, ?_⟩
  rw [h.code_eq, hb, textOf_append, textOf, text_transformation]
  simp only [String.append_assoc]

/-- A finding inside the copy of an expression is reported inside the expression. -/
theorem Outcome.locate_eq (h : Outcome o d typeLibrary r last e unit)
    (hb : last.probe.declarations = before ++ .transformation b c members :: after)
    (hexcerpt : Excerpt d.text.toList b.expression.text b.expression.location) {f : Finding}
    {i : Nat}
    (hstart : f.start = ((d.opening typeLibrary).pending ++ textOf before ++
      evaluationHead b c members).utf8ByteSize + i)
    (hi : i < b.expression.text.utf8ByteSize)
    (hstop : i + f.length ≤ b.expression.text.utf8ByteSize) :
    last.locate d f = some (.ofRange d.text.toList (b.expression.location.start + i)
      (b.expression.location.start + i + f.length)) := by
  have hfaithful := h.finished.reach.faithful
  rw [h.last_probe] at hb
  rw [locate_congr h.last_probe]
  refine Engine.locate_eq hfaithful.sound.merged.wellFormed ?_ ?_
  · rw [← hfaithful.markupFile, hstart]
    refine hfaithful.sound.sends_of_mapsTo h.pending_eq (hfaithful.copies _ _ _ _ _ hb i hi ?_)
    rw [← hexcerpt.utf8ByteSize_eq]
    exact hi
  · -- the expression ends inside the text of the view
    obtain ⟨front, back, htext, hfront⟩ := hexcerpt.exists_append
    have hsize := congrArg String.utf8ByteSize htext
    rw [String.ofList_toList, String.utf8ByteSize_append, String.utf8ByteSize_append] at hsize
    omega

end Engine

/-! ### Views -/

/-- The expression of a binding of a view is the stretch of the view at its place. -/
theorem excerpt_of_build [ScriptParser] {file text : String} {options : Markup.Options}
    {tokenized : Markup.Tokenized} {handlers : Handlers} {d : Document}
    (hmark : text.toList.head? ≠ some '\ufeff')
    (ht : Markup.tokenize file text.toList options = .ok tokenized)
    (hd : (build file text tokenized handlers).document = some d) {k : Nat} {b : Binding}
    (hb : d.bindings[k]? = some b) :
    Excerpt text.toList b.expression.text b.expression.location := by
  obtain ⟨i, j, hstands⟩ := expression_stands_of_build ht hd hb
  rw [Markup.stripMark_eq_self hmark] at hstands
  exact hstands.excerpt

/-- **Type errors of expressions are reported where they are.**  The program has a copy of the
expression of every binding that it evaluates.  A finding inside of the copy, at distance `i` from
its beginning, is reported at distance `i` from the beginning of the expression in the view, with
the lines and columns there, and on the same bytes. -/
theorem finding_lands_on_expression [ScriptParser] {U : Type} (o : Oracle U) {file text : String}
    {options : Markup.Options} {tokenized : Markup.Tokenized} {handlers : Handlers} {d : Document}
    (hmark : text.toList.head? ≠ some '\ufeff')
    (ht : Markup.tokenize file text.toList options = .ok tokenized)
    (hd : (build file text tokenized handlers).document = some d) (typeLibrary : String)
    {r : Resolved} (hr : resolve o d typeLibrary = .ok r) {before after : List Declaration}
    {b : Binding} {c : ContextId} {members : List String}
    (hb : (runResolve o d typeLibrary).2.probe.declarations =
      before ++ .transformation b c members :: after) :
    let head := (d.opening typeLibrary).pending ++ textOf before ++ evaluationHead b c members
    let start := b.expression.location.start
    (∃ tail, r.probe.code = head ++ (b.expression.text ++ tail)) ∧
    ∀ (f : Finding) (i : Nat), f.file = r.probe.file → f.start = head.utf8ByteSize + i →
      i < b.expression.text.utf8ByteSize → i + f.length ≤ b.expression.text.utf8ByteSize →
      (runResolve o d typeLibrary).2.diagnostic? d f =
        some (.ofFinding file f.code f.message f.severity
          (some (.ofRange text.toList (start + i) (start + i + f.length)))) ∧
      text.toByteArray.extract (start + i) (start + i + f.length) =
        r.probe.code.toByteArray.extract f.start (f.start + f.length) := by
  intro head start
  have hwf := build_wellFormed hd
  obtain ⟨hfile, htext⟩ : d.file = file ∧ d.text = text := by
    rw [document_eq_machine hd]
    exact ⟨rfl, rfl⟩
  rcases runResolve_cases o hwf typeLibrary with ⟨r', e, unit, hr', h⟩ | ⟨f, hf, -⟩
  · cases hr'.symm.trans hr
    have hmem : .transformation b c members ∈ e.probe.declarations := by
      rw [← h.last_probe, hb]
      exact List.mem_append_right _ (List.mem_cons_self ..)
    obtain ⟨hbinding, -⟩ := h.finished.reach.listed.evaluated b c members hmem
    -- the expression stands in the view and in the program
    have hexcerpt := excerpt_of_build hmark ht hd hbinding
    obtain ⟨tail, hcode⟩ := h.exists_copy hb
    refine ⟨⟨tail, hcode⟩, ?_⟩
    intro f i hf hstart hi hstop
    have hf : f.file = e.probe.file := by
      rw [hf, h.probe_eq]
      rfl
    constructor
    · have hlocate := h.locate_eq hb (htext ▸ hexcerpt) hstart hi hstop
      rw [Engine.diagnostic?, h.last_probe, if_pos hf, hlocate, hfile, htext]
    · obtain ⟨front, back, hview, hfront⟩ := hexcerpt.exists_append
      rw [String.ofList_toList] at hview
      have hfront : front.utf8ByteSize = start := hfront
      rw [hcode, hstart, hview, ← hfront, extract_append_append _ _ _ hstop,
        extract_append_append _ _ _ hstop]
  · cases hf.symm.trans hr

/-- A view with a line break and a letter of two bytes before its binding. -/
def accentedView : String :=
  "<!-- ko-viewmodel View -->\n<p title='\u00e9' data-bind='text: name'></p>"

/-- The expression that a declaration copies, with the byte at which it begins. -/
def Declaration.copied? : Declaration → Option (String × Nat)
  | .transformation b _ _ => some (b.expression.text, b.expression.location.start)
  | _ => none

theorem finding_lands_on_expression_accentedView :
    ∃ tokenized d r before after b c members,
      Markup.tokenize "view.html" accentedView.toList ⟨["data-bind"], false⟩ = .ok tokenized ∧
      (build "view.html" accentedView tokenized ⟨.empty, .empty⟩).document = some d ∧
      resolve lavishOracle d "lib" = .ok r ∧ r.probe.revisions = 3 ∧
      (runResolve lavishOracle d "lib").2.probe.declarations =
        before ++ .transformation b c members :: after ∧
      let head := (d.opening "lib").pending ++ textOf before ++ evaluationHead b c members
      (∃ tail, r.probe.code = head ++ ("name" ++ tail)) ∧
      ∀ code message severity,
        (runResolve lavishOracle d "lib").2.diagnostic? d
            ⟨r.probe.file, head.utf8ByteSize + 1, 2, message, code, severity⟩ =
          some (.ofFinding "view.html" code message severity
            (some ⟨⟨2, 31⟩, ⟨2, 33⟩, 59, 61⟩)) := by
  -- reading and building the view, and resolving it, is a computation
  have hview :
      (((Markup.tokenize "view.html" accentedView.toList ⟨["data-bind"], false⟩).toOption.bind
        fun tokenized => (build "view.html" accentedView tokenized ⟨.empty, .empty⟩).document).map
          fun d => ((runResolve lavishOracle d "lib").2.probe.declarations.filterMap (·.copied?),
            (runResolve lavishOracle d "lib").2.probe.revisions)) = some ([("name", 58)], 3) := by
    decide +kernel
  obtain ⟨d, hd, hresolved⟩ := Option.map_eq_some_iff.mp hview
  obtain ⟨tokenized, ht, hd⟩ := Option.bind_eq_some_iff.mp hd
  obtain ⟨hcopied, hrevisions⟩ := Prod.mk.inj hresolved
  have htokenize : Markup.tokenize "view.html" accentedView.toList ⟨["data-bind"], false⟩ =
      .ok tokenized := by
    cases hread : Markup.tokenize "view.html" accentedView.toList ⟨["data-bind"], false⟩ with
    | error fault =>
      rw [hread] at ht
      cases ht
    | ok tokenized' =>
      rw [hread] at ht
      cases ht
      rfl
  have hmem : ("name", 58) ∈
      (runResolve lavishOracle d "lib").2.probe.declarations.filterMap (·.copied?) := by
    rw [hcopied]
    exact List.mem_singleton_self _
  obtain ⟨x, hx, hcopy⟩ := List.mem_filterMap.mp hmem
  cases x with
  | transformation b c members =>
    obtain ⟨htext, hstart⟩ := Prod.mk.inj (Option.some.inj hcopy)
    obtain ⟨before, after, hb⟩ := List.append_of_mem hx
    rcases runResolve_cases lavishOracle (build_wellFormed hd) "lib" with
      ⟨r, e, unit, hr, h⟩ | ⟨f, -, hfailed⟩
    · obtain ⟨hcode, hfinding⟩ :=
        finding_lands_on_expression lavishOracle (by decide) htokenize hd "lib" hr hb
      refine ⟨tokenized, d, r, before, after, b, c, members, htokenize, hd, hr, ?_, hb, ?_, ?_⟩
      · rw [h.probe_eq, ← hrevisions, h.last_probe]
        rfl
      · rw [← htext]
        exact hcode
      · intro code message severity
        have hsize : b.expression.text.utf8ByteSize = 4 := by
          rw [htext]
          rfl
        have hlength : 1 + 2 ≤ b.expression.text.utf8ByteSize := by omega
        have hlocation : Location.ofRange accentedView.toList 59 61 =
            ⟨⟨2, 31⟩, ⟨2, 33⟩, 59, 61⟩ := by decide
        have hdiagnostic := (hfinding ⟨r.probe.file, _, 2, message, code, severity⟩ 1 rfl rfl
          (by omega) hlength).1
        rw [hstart] at hdiagnostic
        rw [hdiagnostic]
        exact congrArg (fun l => some (Diagnostic.ofFinding _ code message severity (some l)))
          hlocation
    · exact absurd (fun call _ => failure?_lavishOracle call) hfailed.not_answered
  | root | directive | bindingContext | scope => cases hcopy

end ViewLint
