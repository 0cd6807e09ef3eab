import ViewLint.Proofs.Probe.Boundaries
import ViewLint.Proofs.Resolve.Spans

/-!
# The map that is handed out

The program of a resolution is handed out with its map to the markup.  A segment of the map that
does not begin and end between characters is left out when the map is written in the interchange
format.  Names, types and expressions are copied as they are, so that it depends on the literals
alone whether this happens: those of the paths that the view imports from, and of the handlers that
are evaluated.

## Main definitions

* `Document.Exact` — the names and expressions of a document have as many bytes as their places.

## Main results

* `Engine.Reach.exact` — what a resolution declares is exact.
* `Engine.Reach.aligned_iff` — its program is aligned if the literals are.
* `Engine.Outcome.rendered_iff` — the segments that are written.
* `Engine.Outcome.parted_iff` — the segments begin and end between characters if the literals are
  cut there.
* `map_is_written_whole_iff` — when no segment is left out.
-/

namespace ViewLint

open Text

/-- The names and expressions of a document have as many bytes as their places. -/
structure Document.Exact (d : Document) : Prop extends d.NamesExact where
  expressions : ∀ (k : Nat) (b : Binding), d.bindings[k]? = some b →
    b.expression.location.size = b.expression.text.utf8ByteSize

theorem exact_of_parseView [ScriptParser] {settings : Settings} {view : View} {d : Document}
    (hd : (parseView settings view).document = some d) : d.Exact := by
  obtain ⟨tokenized, ht, hbuild⟩ := exists_of_parseView hd
  exact ⟨namesExact_of_build ht hbuild, fun k b hb => (places_of_build hbuild hb).2⟩

/-! ### Programs -/

namespace Engine

variable {U : Type} {o : Oracle U} {d : Document} {typeLibrary : String} {e e' last : Engine U}
  {r : Resolved} {unit : U}

/-- What an update declares comes from the document. -/
theorem Update.declares_exact (hd : d.Exact) (h : Update o d e e') :
    e'.probe = e.probe ∨ ∃ x : Declaration, x.Exact ∧ e'.probe = e.probe.declare x := by
  cases h with
  | report | bare | hide | learn | assign | leave | keep => exact .inl rfl
  | @declareBinding n b c members hb =>
    exact .inr ⟨.transformation b c members, hd.expressions _ _ hb, probe_declare e _⟩
  | @openRoot p type _ hkind =>
    exact .inr ⟨.root e.contexts.size type, hd.types _ _ _ _ hkind, rfl⟩
  | @openDirective p q c type _ hkind =>
    exact .inr ⟨.directive e.contexts.size type c, hd.types _ _ _ _ hkind, rfl⟩
  | @openBinding n c b => exact .inr ⟨.bindingContext e.contexts.size b.id, trivial, rfl⟩

theorem Reach.exact (hd : d.Exact) (h : Reach o d typeLibrary e) :
    ∀ x ∈ e.probe.declarations, x.Exact := by
  have hdeclare : ∀ (p : Probe) (x : Declaration), (∀ y ∈ p.declarations, y.Exact) → x.Exact →
      ∀ y ∈ (p.declare x).declarations, y.Exact := by
    intro p x hp hx
    rw [Probe.declarations_declare, List.forall_mem_append, List.forall_mem_singleton]
    exact ⟨hp, hx⟩
  induction h with
  | blank =>
    intro x hx
    change x ∈ (d.opening typeLibrary).declarations at hx
    rw [declarations_opening] at hx
    cases hx
  | begin frontier _ ih => exact ih
  | update _ hstep ih =>
    rcases hstep.declares_exact hd with hsame | ⟨x, hx, hprobe⟩
    · rw [hsame]
      exact ih
    · rw [hprobe]
      exact hdeclare _ x ih hx
  | declareScope _ _ _ ih => exact hdeclare _ _ ih trivial
  | compile _ _ _ ih => exact ih
  | inspect _ _ _ ih => exact ih

/-- The opening of a program is aligned if the paths of the imports are. -/
theorem aligned_opening_iff (hd : d.Exact) (typeLibrary : String) :
    (d.opening typeLibrary).Aligned ↔ ∀ i ∈ d.imports, i.path.LiteralFits := by
  have hsymbols : ∀ i ∈ d.imports, ∀ s ∈ i.symbols, ∀ n ∈ s.names, n.Exact := by
    intro i hi s hs n hn
    exact hd.imports i hi n (List.mem_append_left _ (List.mem_flatMap_of_mem hs hn))
  have haligns := (Probe.aligns_emitImports hsymbols (.initial d.file typeLibrary)).before
    (Probe.aligns_emitHandlers _ d.importedHandlers.toList)
  refine (haligns.aligned (Probe.kept_initial d.file typeLibrary)).trans (and_iff_right ?_)
  -- nothing has been copied yet
  intro x hx
  cases hx

/-- The program of every state is aligned if its literals are. -/
theorem Reach.aligned_iff (hd : d.Exact) (h : Reach o d typeLibrary e) :
    e.probe.Aligned ↔ (∀ i ∈ d.imports, i.path.LiteralFits) ∧
      ∀ x ∈ e.probe.declarations, x.LiteralFits := by
  have hinvariant : e.probe.Kept ∧ ((∀ x ∈ e.probe.declarations, x.Exact) →
      (e.probe.Aligned ↔ (d.opening typeLibrary).Aligned ∧
        ∀ x ∈ e.probe.declarations, x.LiteralFits)) := by
    refine h.probe_induction (P := fun p => p.Kept ∧ ((∀ x ∈ p.declarations, x.Exact) →
      (p.Aligned ↔ (d.opening typeLibrary).Aligned ∧ ∀ x ∈ p.declarations, x.LiteralFits))) ?_ ?_ ?_
    · refine ⟨(Probe.recorded_opening d typeLibrary).kept, fun _ => ?_⟩
      rw [declarations_opening]
      exact (and_iff_left fun x hx => nomatch hx).symm
    · rintro p x - ⟨hkept, haligned⟩
      refine ⟨(hkept.declare x).1, ?_⟩
      rw [Probe.declarations_declare, List.forall_mem_append, List.forall_mem_singleton]
      rintro ⟨hold, hx⟩
      rw [(Probe.aligns_declare hx p).aligned hkept, haligned hold, List.forall_mem_append,
        List.forall_mem_singleton, and_assoc]
    · rintro p ⟨hkept, haligned⟩
      refine ⟨hkept.commit, fun hexact => ?_⟩
      rw [(Probe.aligns_commit p).aligned hkept, and_iff_left trivial]
      exact haligned hexact
  rw [hinvariant.2 (h.exact hd), aligned_opening_iff hd]

/-! ### Outcomes -/

/-- The segments of the map are those of the program, and all of them go to the markup. -/
theorem Outcome.segments_eq (h : Outcome o d typeLibrary r last e unit) :
    r.probe.map.segments = e.probe.merged.segments ∧
      (∀ s ∈ r.probe.map.segments, s.source = 0 ∧ s.start < s.stop) := by
  have hsegments : r.probe.map.segments = e.probe.merged.segments := by
    rw [h.probe_eq]
    rfl
  refine ⟨hsegments, ?_⟩
  intro s hs
  rw [hsegments, ← Array.mem_toList_iff] at hs
  have hkept := h.finished.reach.recorded.kept
  have hlt := hkept.merged.wellFormed.source_lt s hs
  rw [hkept.sources_eq hs] at hlt
  exact ⟨Nat.lt_one_iff.mp hlt, hkept.merged.wellFormed.nonempty s hs⟩

/-- The program that is handed out has nothing pending, so that its segments are all of its
copies. -/
theorem Outcome.aligned_iff (h : Outcome o d typeLibrary r last e unit) :
    (∀ s ∈ r.probe.map.segments, (between? r.probe.code.toList s.start s.stop).isSome) ↔
      e.probe.Aligned := by
  obtain ⟨hsegments, hsolid⟩ := h.segments_eq
  have hcode : r.probe.code = e.probe.text ++ e.probe.pending := by
    rw [h.probe_eq, h.pending_eq, String.append_empty]
    rfl
  have hmarks : markStretches e.probe.text.utf8ByteSize e.probe.markupFile e.probe.marks = [] := by
    have htidy := h.finished.reach.recorded.kept.tidy
    rw [Probe.Tidy, h.pending_eq, String.utf8ByteSize_empty] at htidy
    apply List.eq_nil_iff_forall_not_mem.mpr
    intro x hx
    have := htidy.stretch_bounds hx
    omega
  rw [Probe.Aligned, Probe.trail, hmarks, List.append_nil, SourceMap.stretches, List.forall_mem_map,
    ← hsegments, hcode]
  simp only [Array.mem_toList_iff]
  refine forall₂_congr fun s hs => ?_
  rw [isSome_between?, ← and_assoc, and_iff_left (Nat.le_of_lt (hsolid s hs).2)]
  rfl

/-- A segment is written in the interchange format if it begins and ends between characters. -/
theorem Outcome.rendered_iff (h : Outcome o d typeLibrary r last e unit) {s : Segment}
    (hs : s ∈ r.probe.map.segments) (markup : String) :
    s.entries (.of r.probe.code) [.of markup] ≠ [] ↔
      (between? r.probe.code.toList s.start s.stop).isSome := by
  obtain ⟨hsource, -⟩ := h.segments_eq.2 s hs
  have hread : (Indexed.of r.probe.code).2.between? s.start s.stop =
      between? r.probe.code.toList s.start s.stop := TextIndex.between?_eq _ _ _
  unfold Segment.entries Segment.points
  rw [hsource, hread]
  cases between? r.probe.code.toList s.start s.stop <;> simp

/-- A binding is evaluated if its element hands a context to its content. -/
theorem Outcome.evaluated_iff (hd : d.WellFormed) (h : Outcome o d typeLibrary r last e unit)
    {b : Binding} (hb : d.bindings[b.id]? = some b) (hn : b.id ∈ d.bindingsOf b.node) :
    (∃ c members, .transformation b c members ∈ e.probe.declarations) ↔
      ∃ c, r.outgoing.get? b.node = some (.context c) := by
  have hchecks := h.checks hd hb hn
  rw [Resolved.Checks, h.last_probe] at hchecks
  constructor
  · rintro ⟨c, members, hmem⟩
    have hfilter : .transformation b c members ∈
        e.probe.declarations.filter (·.binding? = some b.id) :=
      List.mem_filter.mpr ⟨hmem, decide_eq_true rfl⟩
    cases hout : r.outgoing.get? b.node with
    | none =>
      rw [hout] at hchecks
      exact hchecks.elim
    | some a =>
      rw [hout] at hchecks
      cases a with
      | context c' => exact ⟨c', rfl⟩
      | unknown =>
        rw [hchecks] at hfilter
        cases hfilter
  · rintro ⟨c, hout⟩
    rw [hout] at hchecks
    obtain ⟨c', members, -, hfilter⟩ := hchecks
    have hmem := List.mem_singleton_self (Declaration.transformation b c' members)
    rw [← hfilter] at hmem
    exact ⟨c', members, (List.mem_filter.mp hmem).1⟩

/-- The literals of the declarations are those of the handlers that are evaluated. -/
theorem Outcome.literalFits_iff (hd : d.WellFormed)
    (hnodes : ∀ (k : Nat) (b : Binding), d.bindings[k]? = some b →
      b.id = k ∧ k ∈ d.bindingsOf b.node)
    (h : Outcome o d typeLibrary r last e unit) :
    (∀ x ∈ e.probe.declarations, x.LiteralFits) ↔
      ∀ b ∈ d.bindings, (∃ c, r.outgoing.get? b.node = some (.context c)) → b.LiteralFits := by
  constructor
  · intro hall b hb hout
    obtain ⟨k, hk⟩ := Array.getElem?_of_mem hb
    obtain ⟨rfl, hn⟩ := hnodes k b hk
    obtain ⟨c, members, hmem⟩ := (h.evaluated_iff hd hk hn).mpr hout
    exact hall _ hmem
  · intro hall x hx
    cases x with
    | root | directive | bindingContext | scope => exact trivial
    | transformation b c members =>
      obtain ⟨hb, -⟩ := h.finished.reach.listed.evaluated b c members hx
      obtain ⟨-, hn⟩ := hnodes b.id b hb
      exact hall b (Array.mem_of_getElem? hb) ((h.evaluated_iff hd hb hn).mp ⟨c, members, hx⟩)

/-- The segments of the map begin and end between characters if the literals are cut there. -/
theorem Outcome.parted_iff [ScriptParser] {settings : Settings} {view : View}
    (hd : (parseView settings view).document = some d) (h : Outcome o d typeLibrary r last e unit) :
    (∀ s ∈ r.probe.map.segments, (between? r.probe.code.toList s.start s.stop).isSome) ↔
      (∀ i ∈ d.imports, i.path.LiteralFits) ∧
      ∀ b ∈ d.bindings, (∃ c, r.outgoing.get? b.node = some (.context c)) → b.LiteralFits := by
  obtain ⟨tokenized, -, hbuild⟩ := exists_of_parseView hd
  rw [h.aligned_iff, h.finished.reach.aligned_iff (exact_of_parseView hd),
    h.literalFits_iff (build_wellFormed hbuild) fun k b hb => mem_bindingsOf_of_build hbuild hb]

end Engine

/-- **When no segment of the map is left out.**  A view has been read and resolved, and the program
is handed out with its map.  What is written in the interchange format are the entries of one
segment after the other.  A segment has entries exactly if it begins and ends between characters of
the program.  All segments do so exactly if two kinds of literals are cut between characters: those
of the paths that the view imports from, and those of the handlers of bindings on elements that hand
a context to their content.  Behind the cut in the latter a character of one byte has to stand. -/
theorem map_is_written_whole_iff [ScriptParser] {U : Type} (o : Oracle U) {settings : Settings}
    {view : View} {d : Document} (hd : (parseView settings view).document = some d)
    (typeLibrary : String) {r : Resolved} (hr : resolve o d typeLibrary = .ok r) :
    (∀ markup, (r.probe.rendered markup).mappings =
      encodeEntries (r.probe.map.segments.toList.flatMap
        (·.entries (.of r.probe.code) [.of markup]))) ∧
    (∀ s ∈ r.probe.map.segments, ∀ markup,
      s.entries (.of r.probe.code) [.of markup] ≠ [] ↔
        (between? r.probe.code.toList s.start s.stop).isSome) ∧
    ((∀ s ∈ r.probe.map.segments, (between? r.probe.code.toList s.start s.stop).isSome) ↔
      (∀ i ∈ d.imports, i.path.LiteralFits) ∧
      ∀ b ∈ d.bindings, (∃ c, r.outgoing.get? b.node = some (.context c)) → b.LiteralFits) := by
  obtain ⟨tokenized, -, hbuild⟩ := exists_of_parseView hd
  obtain ⟨e, unit, h⟩ := exists_outcome (build_wellFormed hbuild) hr
  exact ⟨fun _ => rfl, fun s hs markup => h.rendered_iff hs markup, h.parted_iff hd⟩

/-! ### Literals with escapes -/

/-- A view that has been read is resolved by a type checker that always answers. -/
theorem exists_outcome_lavishOracle [ScriptParser] {settings : Settings} {view : View}
    {d : Document} (hd : (parseView settings view).document = some d) :
    ∃ r e unit, resolve lavishOracle d "lib" = .ok r ∧
      Engine.Outcome lavishOracle d "lib" r (runResolve lavishOracle d "lib").2 e unit := by
  obtain ⟨tokenized, -, hbuild⟩ := exists_of_parseView hd
  rcases runResolve_cases lavishOracle (build_wellFormed hbuild) "lib" with
    ⟨r, e, unit, hr, h⟩ | ⟨f, -, hfailed⟩
  · exact ⟨r, e, unit, hr, h⟩
  · exact absurd (fun call _ => failure?_lavishOracle call) hfailed.not_answered

/-- A view that imports from a path with one quote in it.  Its literal is one byte longer than the
path with its quotes, and only the last quote is cut off. -/
def quoteView : View :=
  ⟨"view.html", "<!-- ko-import vm from '\"\u00e9' --><!-- ko-viewmodel vm -->" ++
    "<p data-bind=\"'\u00e9': a\"></p>"⟩

theorem map_is_written_whole_iff_quoteView :
    ∃ d r, (parseView .default quoteView).document = some d ∧
      resolve lavishOracle d "lib" = .ok r ∧
      d.imports.map (fun i => ((quote i.path.value).utf8ByteSize, i.path.literalCut)) = [(6, 5)] ∧
      d.bindings.toList.map (fun b => (b.handler.value, b.handler.literalCut)) = [("\u00e9", 4)] ∧
      ∀ s ∈ r.probe.map.segments, ∀ markup, s.entries (.of r.probe.code) [.of markup] ≠ [] := by
  have hview : ((parseView .default quoteView).document.map fun d =>
      (d.imports.map fun i => ((quote i.path.value).utf8ByteSize, i.path.literalCut),
        d.bindings.toList.map fun b => (b.handler.value, b.handler.literalCut),
        decide (∀ i ∈ d.imports, i.path.LiteralFits),
        decide (∀ b ∈ d.bindings.toList, b.LiteralFits))) =
      some ([(6, 5)], [("\u00e9", 4)], true, true) := by
    decide +kernel
  obtain ⟨d, hd, hfound⟩ := Option.map_eq_some_iff.mp hview
  simp only [Prod.mk.injEq, decide_eq_true_eq] at hfound
  obtain ⟨himports, hbindings, hpaths, hhandlers⟩ := hfound
  obtain ⟨r, -, -, hr, -⟩ := exists_outcome_lavishOracle hd
  refine ⟨d, r, hd, hr, himports, hbindings, ?_⟩
  obtain ⟨-, hwritten, hwhole⟩ := map_is_written_whole_iff lavishOracle hd "lib" hr
  intro s hs markup
  refine (hwritten s hs markup).mpr (hwhole.mpr ⟨hpaths, ?_⟩ s hs)
  intro b hb _
  exact hhandlers b (Array.mem_toList_iff.mpr hb)

/-- A view that imports from a path with two quotes in it, behind which a character of two bytes
stands. -/
def quotesView : View :=
  ⟨"view.html", "<!-- ko-viewmodel View --><!-- ko-import vm from '\"\"\u00e9' -->"⟩

/-- The literal of the path has eight bytes and is cut behind the sixth, inside of its last letter.
So a segment of the map is left out. -/
theorem map_loses_segment :
    ∃ d r s, (parseView .default quotesView).document = some d ∧ d.viewmodel?.isSome ∧
      d.imports.map (fun i => ((quote i.path.value).utf8ByteSize, i.path.literalCut)) = [(8, 6)] ∧
      resolve lavishOracle d "lib" = .ok r ∧ s ∈ r.probe.map.segments ∧
      between? r.probe.code.toList s.start s.stop = none ∧
      ∀ markup, s.entries (.of r.probe.code) [.of markup] = [] := by
  have hview : ((parseView .default quotesView).document.map fun d =>
      (d.viewmodel?.isSome,
        d.imports.map fun i => ((quote i.path.value).utf8ByteSize, i.path.literalCut),
        decide (∀ i ∈ d.imports, i.path.LiteralFits))) = some (true, [(8, 6)], false) := by
    decide +kernel
  obtain ⟨d, hd, hfound⟩ := Option.map_eq_some_iff.mp hview
  simp only [Prod.mk.injEq, decide_eq_false_iff_not] at hfound
  obtain ⟨hviewmodel, himports, hpaths⟩ := hfound
  obtain ⟨r, e, unit, hr, h⟩ := exists_outcome_lavishOracle hd
  have hlost : ¬∀ s ∈ r.probe.map.segments,
      (between? r.probe.code.toList s.start s.stop).isSome :=
    fun hall => hpaths ((h.parted_iff hd).mp hall).1
  simp only [not_forall] at hlost
  obtain ⟨s, hs, hnone⟩ := hlost
  refine ⟨d, r, s, hd, hviewmodel, himports, hr, hs, Option.not_isSome_iff_eq_none.mp hnone, ?_⟩
  intro markup
  exact not_not.mp (mt (h.rendered_iff hs markup).mp hnone)

end ViewLint
