import ViewLint.Proofs.Binding.Places
import ViewLint.Proofs.Document.Provenance
import ViewLint.Proofs.Probe.Trail

/-!
# Evaluations come from their bindings

The evaluation of a binding is a stretch of a program of which only two parts are copied from the
markup.  Anchors fill the gaps, and one of them stands where the evaluation begins, so that an
offset of the evaluation is never looked up in what was emitted before.  What is found is then a
mark of the evaluation itself: the name of the handler with its quotes, the expression, or an anchor
to the handler.

## Main definitions

* `Binding.Owns` — an offset of the markup belongs to a binding.

## Main results

* `exists_mem_anchored` — an anchored stretch begins with a mark.
* `Probe.Kept.translate_transformation` — offsets of an evaluation come from its binding.
* `evaluation_comes_from_binding` — the same for every binding of a document and every program.
-/

namespace ViewLint

/-! ### Anchors -/

/-- A mark of an anchored stretch is one that was there, or an anchor. -/
theorem of_mem_anchored {k : Mark} {marks : List Mark} {sourceStart stop cursor : Nat}
    (hk : k ∈ Probe.anchored sourceStart stop cursor marks) :
    k ∈ marks ∨ k.sourceStart = sourceStart ∧ k.stop = k.start + 1 := by
  induction marks generalizing cursor with
  | nil =>
    rw [Probe.anchored] at hk
    split at hk
    · rw [List.mem_singleton.mp hk]
      exact .inr ⟨rfl, rfl⟩
    · cases hk
  | cons l marks ih =>
    have hrest : k ∈ l :: Probe.anchored sourceStart stop (max cursor l.stop) marks →
        k ∈ l :: marks ∨ k.sourceStart = sourceStart ∧ k.stop = k.start + 1 := by
      intro h
      rcases List.mem_cons.mp h with rfl | h
      · exact .inl (List.mem_cons_self ..)
      · exact (ih h).imp_left (List.mem_cons_of_mem l)
    rw [Probe.anchored] at hk
    split at hk
    · rcases List.mem_cons.mp hk with rfl | hk
      · exact .inr ⟨rfl, rfl⟩
      · exact hrest hk
    · exact hrest hk

/-- An anchored stretch that is not empty begins with a mark that is not empty. -/
theorem exists_mem_anchored {first last : Nat} {marks : List Mark} (h : InRow first last marks)
    (hlt : first < last) (sourceStart : Nat) :
    ∃ k ∈ Probe.anchored sourceStart last first marks, k.start = first ∧ k.start < k.stop := by
  induction marks with
  | nil =>
    rw [Probe.anchored, if_pos hlt]
    exact ⟨_, List.mem_singleton_self _, rfl, Nat.lt_succ_self _⟩
  | cons l marks ih =>
    obtain ⟨hfirst, hl, hmarks⟩ := h
    rw [Probe.anchored, Nat.max_eq_right (Nat.le_trans hfirst hl)]
    by_cases hgap : first < l.start
    · rw [if_pos hgap]
      exact ⟨_, List.mem_cons_self .., rfl, Nat.lt_succ_self _⟩
    · rw [if_neg hgap]
      have hstart : l.start = first := by omega
      by_cases hsolid : l.start < l.stop
      · exact ⟨l, List.mem_cons_self .., hstart, hsolid⟩
      · -- an empty mark where the stretch begins changes nothing
        have hstop : l.stop = first := by omega
        rw [hstop] at hmarks ⊢
        obtain ⟨k, hk, hbegin, hend⟩ := ih hmarks
        exact ⟨k, List.mem_cons_of_mem l hk, hbegin, hend⟩

/-! ### Marks of an evaluation -/

/-- An offset of the markup belongs to a binding: it is where the handler begins, it is in the
handler or one of the quotes around it, or it is in the expression. -/
def Binding.Owns (b : Binding) (o : Nat) : Prop :=
  o = b.handler.location.start ∨
    (b.handler.location.start - 1 ≤ o ∧ o < b.handler.location.stop + 1) ∨
    (b.expression.location.start ≤ o ∧ o < b.expression.location.stop)

instance (b : Binding) (o : Nat) : Decidable (b.Owns o) :=
  inferInstanceAs (Decidable (_ ∨ _ ∨ _))

namespace Probe

variable {p p' : Probe} {b : Binding} {context : ContextId} {members : List String}

/-- The evaluation of a binding has two copies from the markup, and each of them ends when either
text does. -/
theorem exists_marks_emitEvaluation (p : Probe) (b : Binding) (context : ContextId)
    (members : List String) :
    ∃ s s', (p.emitEvaluation b context members).marks = p.marks ++
      [⟨s, s + min (Text.quote b.handler.value).utf8ByteSize (b.handler.location.size + 2),
        b.handler.location.start - 1, none⟩,
      ⟨s', s' + min b.expression.text.utf8ByteSize b.expression.location.size,
        b.expression.location.start, none⟩] := by
  exact ⟨_, _, List.append_assoc p.marks [_] [_]⟩

/-- The marks of an evaluation all go to the binding, and one of them stands at its beginning. -/
theorem exists_marks_emitTransformation (hp : p.Tidy)
    (hhandler : b.handler.location.start ≤ b.handler.location.stop)
    (hstart : b.handler.location.start ≠ 0) (context : ContextId) (members : List String) :
    ∃ new, (p.emitTransformation b context members).marks = p.marks ++ new ∧
      (∃ k ∈ new, k.start = p.pending.utf8ByteSize ∧ k.start < k.stop) ∧
      ∀ k ∈ new, ∀ i, k.start + i < k.stop → b.Owns (k.sourceStart + i) := by
  have hevaluation : Emits p (p.emitEvaluation b context members) _ :=
    (((emits_emitHead b context members p).trans (emits_emitAt _ _ _ _ _)).trans
      (emits_emit _ _)).trans (emits_emit _ _)
  obtain ⟨new, hnew, hrow⟩ := hevaluation.marks hp
  have hsize : p.pending.utf8ByteSize <
      (p.emitEvaluation b context members).pending.utf8ByteSize := by
    rw [hevaluation.pending]
    simp only [String.utf8ByteSize_append]
    have hpositive : 0 < ", $context)\n\x7d\n".utf8ByteSize := by decide
    omega
  refine ⟨_, marks_anchor hnew hp hrow b.handler.location.start,
    exists_mem_anchored hrow hsize _, ?_⟩
  intro k hk i hi
  rcases of_mem_anchored hk with hk | ⟨hsource, hstop⟩
  · obtain ⟨s, s', hmarks⟩ := exists_marks_emitEvaluation p b context members
    rw [hnew, List.append_cancel_left_eq] at hmarks
    rw [hmarks] at hk
    unfold Binding.Owns
    rcases List.mem_cons.mp hk with rfl | hk
    · -- the literal, from the quote before the handler to the one behind it
      unfold Location.size at hi
      dsimp only at hi ⊢
      omega
    · -- the expression
      rw [List.mem_singleton.mp hk] at hi ⊢
      unfold Location.size at hi
      dsimp only at hi ⊢
      omega
  · have hzero : i = 0 := by omega
    rw [hzero, hsource]
    exact .inl rfl

/-! ### Looking up an evaluation -/

/-- What is found among the marks of a declaration is where its text comes from, whatever the
program goes on with. -/
theorem Kept.translate_declared {x : Declaration} (hp' : p'.Kept)
    (hextends : (p.declare x).Extends p') {new : List Mark}
    (hmarks : (p.declare x).marks = p.marks ++ new) {o : Nat} (hlast : o < (p.declare x).size)
    (hcommitted : o < p'.text.utf8ByteSize) {y : Stretch}
    (hy : lastBefore o (markStretches p.text.utf8ByteSize p.markupFile new) = some y) :
    p'.translate o = some (Stretch.place [p.markupFile] o y) := by
  have hemits := emits_declare p x
  have hown : (p.declare x).trail =
      p.trail ++ markStretches p.text.utf8ByteSize p.markupFile new := by
    rw [trail, hemits.merged, hemits.text, hemits.markupFile, hmarks, markStretches_append,
      ← List.append_assoc, trail]
  rw [hp'.translate_eq hcommitted, hextends.lastBefore_trail hlast, hown, lastBefore_append, hy,
    hextends.markupFile.trans hemits.markupFile]
  rfl

/-- An offset of the evaluation of a binding comes from that binding, whatever the program goes on
with. -/
theorem Kept.translate_transformation (hp : p.Kept)
    (hhandler : b.handler.location.start ≤ b.handler.location.stop)
    (hstart : b.handler.location.start ≠ 0) (context : ContextId) (members : List String)
    (hp' : p'.Kept) (hextends : (p.declare (.transformation b context members)).Extends p')
    {o : Nat} (hfirst : p.size ≤ o)
    (hlast : o < (p.declare (.transformation b context members)).size)
    (hcommitted : o < p'.text.utf8ByteSize) :
    ∃ place, p'.translate o = some place ∧
      p'.merged.sources[place.source]? = some p.markupFile ∧ b.Owns place.offset := by
  have hemits := emits_declare p (.transformation b context members)
  obtain ⟨new, hmarks, ⟨k, hk, hbegin, hsolid⟩, howns⟩ :=
    exists_marks_emitTransformation (p := { p with declarations := p.declarations ++
      [.transformation b context members] }) hp.tidy hhandler hstart context members
  have hat : k.stretch p.text.utf8ByteSize p.markupFile ∈
      markStretches p.text.utf8ByteSize p.markupFile new :=
    mem_markStretches.mpr ⟨k, hk, hsolid, rfl⟩
  have hle : (k.stretch p.text.utf8ByteSize p.markupFile).start ≤ o := by
    change p.text.utf8ByteSize + k.start ≤ o
    rw [hbegin]
    exact hfirst
  obtain ⟨x, hx⟩ := exists_lastBefore hat hle
  have htranslate := hp'.translate_declared hextends hmarks hlast hcommitted hx
  refine ⟨_, htranslate, ?_, ?_⟩
  · rw [hp'.source_of_translate htranslate, hextends.markupFile, hemits.markupFile]
  · obtain ⟨hmem, hxo⟩ := mem_of_lastBefore hx
    obtain ⟨l, hl, hlsolid, rfl⟩ := mem_markStretches.mp hmem
    have hxo : p.text.utf8ByteSize + l.start ≤ o := hxo
    unfold Stretch.place
    split
    · next hin =>
      -- inside the mark
      have hin : o < p.text.utf8ByteSize + l.stop := hin
      exact howns l hl _ (by change _ + (o - (p.text.utf8ByteSize + l.start)) < _; omega)
    · -- behind the mark, which counts from where it begins
      exact howns l hl 0 hlsolid

end Probe

/-! ### Bindings of a document -/

/-- Of two beginnings of a text the longer one begins with the other one. -/
theorem exists_append_of_size_le {s t u v : String} (h : s ++ t = u ++ v)
    (hle : u.utf8ByteSize ≤ s.utf8ByteSize) : ∃ w, s = u ++ w := by
  have hlist : s.toList ++ t.toList = u.toList ++ v.toList := by
    rw [← String.toList_append, h, String.toList_append]
  rcases List.append_eq_append_iff.mp hlist with ⟨more, hu, -⟩ | ⟨more, hs, -⟩
  · have hu : u = s ++ String.ofList more := by
      rw [← String.ofList_toList (s := u), hu, String.ofList_append, String.ofList_toList]
    have hempty : String.ofList more = "" := by
      rw [hu, String.utf8ByteSize_append] at hle
      exact String.utf8ByteSize_eq_zero_iff.mp (by omega)
    exact ⟨"", by rw [hu, hempty, String.append_empty, String.append_empty]⟩
  · refine ⟨String.ofList more, ?_⟩
    rw [← String.ofList_toList (s := s), hs, String.ofList_append, String.ofList_toList]

/-- The handler and the expression of a binding are stretches of a payload. -/
theorem places_of_build [ScriptParser] {file text : String} {tokenized : Markup.Tokenized}
    {handlers : Handlers} {d : Document} {k : Nat} {b : Binding}
    (hd : (build file text tokenized handlers).document = some d) (hb : d.bindings[k]? = some b) :
    b.handler.location.start ≤ b.handler.location.stop ∧
      b.expression.location.size = b.expression.text.utf8ByteSize := by
  obtain ⟨e, payload, found, -, -, hparse, hmem⟩ := stated_of_build hd hb
  obtain ⟨-, members, -, -, hmembers⟩ := exists_of_parsePayload hparse
  obtain ⟨member, -, hmember⟩ := Except.exists_of_mem_mapM hmembers hmem
  obtain ⟨key, start, stop, -, ⟨-, -, hhandler⟩, hexpression⟩ := exists_of_memberBinding hmember
  dsimp only at hhandler hexpression
  rw [hhandler, hexpression]
  exact ⟨start_le_stop_payloadLocation payload _ _, size_payloadLocation payload start stop⟩

/-- **Every position of an evaluation comes from its own binding.**  A program evaluates a binding
of a document, after anything that has been done with it, and goes on with anything.  Once the
evaluation is committed it stands in the text, and each of its offsets comes from a place of the
markup that belongs to the binding: where the handler begins, in the handler with its quotes, or in
the expression, which is as long there as its copy.  A handler where the markup begins has no quote
before it. -/
theorem evaluation_comes_from_binding [ScriptParser] {file text : String}
    {tokenized : Markup.Tokenized} {handlers : Handlers} {d : Document} {k : Nat} {b : Binding}
    (hd : (build file text tokenized handlers).document = some d) (hb : d.bindings[k]? = some b)
    (hstart : b.handler.location.start ≠ 0) (markupFile typeLibrary : String)
    (before after : List Operation) (context : ContextId) (members : List String) :
    let p := (Probe.initial markupFile typeLibrary).run before
    let chunk := (Declaration.transformation b context members).text
    let p' := (p.declare (.transformation b context members)).run after
    let start := (p.text ++ p.pending).utf8ByteSize
    start + chunk.utf8ByteSize ≤ p'.text.utf8ByteSize →
      (∃ rest, p'.text = p.text ++ p.pending ++ chunk ++ rest) ∧
      b.expression.location.size = b.expression.text.utf8ByteSize ∧
      ∀ o, start ≤ o → o < start + chunk.utf8ByteSize →
        ∃ place, p'.translate o = some place ∧
          p'.merged.sources[place.source]? = some markupFile ∧ b.Owns place.offset := by
  intro p chunk p' start hcommitted
  obtain ⟨hp, hinitial⟩ := (Probe.kept_initial markupFile typeLibrary).run before
  obtain ⟨hdeclared, hextends⟩ := hp.declare (.transformation b context members)
  obtain ⟨hp', hextends'⟩ := hdeclared.run after
  obtain ⟨hhandler, hsize⟩ := places_of_build hd hb
  have hwhole : (p.declare (.transformation b context members)).text ++
      (p.declare (.transformation b context members)).pending = p.text ++ p.pending ++ chunk := by
    rw [Probe.text_declare, Probe.pending_declare, String.append_assoc]
  have hfirst : p.size = start := String.utf8ByteSize_append.symm
  have hlast :
      (p.declare (.transformation b context members)).size = start + chunk.utf8ByteSize := by
    rw [← String.utf8ByteSize_append, ← hwhole, String.utf8ByteSize_append]
    rfl
  refine ⟨?_, hsize, ?_⟩
  · -- the committed text is a beginning of all text, and long enough
    obtain ⟨rest, hrest⟩ := hextends'.whole
    rw [hwhole] at hrest
    exact exists_append_of_size_le hrest (String.utf8ByteSize_append ▸ hcommitted)
  · intro o hle hlt
    obtain ⟨place, htranslate, hsource, howns⟩ :=
      hp.translate_transformation hhandler hstart context members hp' hextends'
        (hfirst ▸ hle) (hlast ▸ hlt) (Nat.lt_of_lt_of_le hlt hcommitted)
    rw [show p.markupFile = markupFile from hinitial.markupFile] at hsource
    exact ⟨place, htranslate, hsource, howns⟩

/-- A view with a handler between quotes, in an attribute behind a letter of two bytes. -/
def quotedHandlerView : String := "<p title='\u00e9' data-bind='\"text\": name'></p>"

theorem evaluation_comes_from_binding_quotedHandlerView :
    ∃ tokenized d b,
      Markup.tokenize "view.html" quotedHandlerView.toList ⟨["data-bind"], false⟩ = .ok tokenized ∧
      (build "view.html" quotedHandlerView tokenized ⟨.empty, .empty⟩).document = some d ∧
      d.bindings[0]? = some b ∧
      (b.handler.location.start, b.handler.location.stop) = (26, 30) ∧
      (b.expression.location.start, b.expression.location.stop) = (33, 37) ∧
      ∀ o,
        let p := (Probe.initial "view.html" "lib").run [.emitMapped "" ⟨⟨1, 1⟩, ⟨1, 1⟩, 0, 0⟩ none]
        let start := (p.text ++ p.pending).utf8ByteSize
        let chunk := (Declaration.transformation b 0 ["name"]).text
        start ≤ o → o < start + chunk.utf8ByteSize →
          ∃ place,
            ((p.declare (.transformation b 0 ["name"])).run [.commit, .emit " "]).translate o =
              some place ∧ (25 ≤ place.offset ∧ place.offset < 31 ∨
              33 ≤ place.offset ∧ place.offset < 37) := by
  -- reading and building the view is a computation
  have hview :
      ((Markup.tokenize "view.html" quotedHandlerView.toList ⟨["data-bind"], false⟩).toOption.bind
        fun tokenized =>
          (build "view.html" quotedHandlerView tokenized ⟨.empty, .empty⟩).document.bind
          fun d => d.bindings[0]?).map (fun b =>
            ((b.handler.location.start, b.handler.location.stop),
              (b.expression.location.start, b.expression.location.stop))) =
        some ((26, 30), (33, 37)) := by
    decide +kernel
  obtain ⟨b, hfound, hplaces⟩ := Option.map_eq_some_iff.mp hview
  obtain ⟨tokenized, ht, hfound⟩ := Option.bind_eq_some_iff.mp hfound
  obtain ⟨d, hd, hb⟩ := Option.bind_eq_some_iff.mp hfound
  obtain ⟨hhandler, hexpression⟩ := Prod.mk.inj hplaces
  refine ⟨tokenized, d, b, Except.toOption_eq_some.mp ht, hd, hb, hhandler, hexpression, ?_⟩
  intro o p start chunk hfirst hlast
  obtain ⟨hstart, hstop⟩ := Prod.mk.inj hhandler
  obtain ⟨hstart', hstop'⟩ := Prod.mk.inj hexpression
  have hcommitted : start + chunk.utf8ByteSize ≤
      ((p.declare (.transformation b 0 ["name"])).run [.commit, .emit " "]).text.utf8ByteSize := by
    change _ ≤ ((p.declare (.transformation b 0 ["name"])).text ++
      (p.declare (.transformation b 0 ["name"])).pending).utf8ByteSize
    rw [Probe.text_declare, Probe.pending_declare, ← String.append_assoc,
      String.utf8ByteSize_append]
  obtain ⟨-, -, hplace⟩ := evaluation_comes_from_binding hd hb (by omega) "view.html" "lib"
    [.emitMapped "" ⟨⟨1, 1⟩, ⟨1, 1⟩, 0, 0⟩ none] [.commit, .emit " "] 0 ["name"] hcommitted
  obtain ⟨place, htranslate, -, howns⟩ := hplace o hfirst hlast
  refine ⟨place, htranslate, ?_⟩
  unfold Binding.Owns at howns
  omega

end ViewLint
