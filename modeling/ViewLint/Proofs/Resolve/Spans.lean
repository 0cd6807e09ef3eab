import ViewLint.Proofs.Probe.Layout
import ViewLint.Proofs.Resolve.Findings

/-!
# How far type errors reach

A type error in the evaluation of a binding begins at the binding: at the handler with its quotes or
at the expression.  Where it ends is another matter.  If its first byte has an exact place, its
length in the program is taken for its length in the markup, although the program may have other
text there: an error that begins in a copy may run on behind it, and the byte of an anchor stands
for a gap of any length.  So the reported range stays on the binding as long as it is short enough,
or if the view ends soon enough.  A length that leads out of the words makes no range at all: its
end is before its beginning.

## Main definitions

* `Probe.Recorded` — every declaration has been emitted behind those before it.
* `Binding.spanStart`, `Binding.spanStop` — the stretch of the markup that a binding is about.
* `Location.StaysOn` — a range inside of that stretch.

## Main results

* `Engine.Reach.recorded` — every state of a resolution has recorded its declarations.
* `Engine.Outcome.translate_eq` — the places of the offsets of an evaluation.
* `finding_stays_on_binding_iff` — when a type error of a binding is reported on the binding.
-/

namespace ViewLint

/-! ### Declarations one by one -/

namespace Probe

variable {opening file : String} {p : Probe}

/-- Every declaration has been emitted behind an opening and the declarations before it, and the
program has gone on from there. -/
structure Recorded (opening file : String) (p : Probe) : Prop where
  kept : p.Kept
  markupFile : p.markupFile = file
  declared : ∀ before x after, p.declarations = before ++ x :: after →
    ∃ q : Probe, q.Kept ∧ q.markupFile = file ∧ q.text ++ q.pending = opening ++ textOf before ∧
      (q.declare x).Extends p

theorem Recorded.declare (h : p.Recorded opening file)
    (hprogram : p.text ++ p.pending = opening ++ textOf p.declarations) (x : Declaration) :
    (p.declare x).Recorded opening file := by
  obtain ⟨hkept, hextends⟩ := h.kept.declare x
  refine ⟨hkept, (emits_declare p x).markupFile.trans h.markupFile, ?_⟩
  intro before y after heq
  rw [declarations_declare] at heq
  rcases append_singleton_eq_append_cons heq with ⟨rfl, rfl, -⟩ | ⟨after', -, hold⟩
  · exact ⟨p, h.kept, h.markupFile, hprogram, .refl _⟩
  · obtain ⟨q, hq, hfile, hbefore, hgone⟩ := h.declared before y after' hold
    exact ⟨q, hq, hfile, hbefore, hgone.trans hextends⟩

theorem Recorded.commit (h : p.Recorded opening file) : p.commit.2.Recorded opening file := by
  refine ⟨h.kept.commit, h.markupFile, ?_⟩
  intro before x after heq
  obtain ⟨q, hq, hfile, hbefore, hgone⟩ := h.declared before x after heq
  exact ⟨q, hq, hfile, hbefore, hgone.trans h.kept.extends_commit⟩

theorem recorded_opening (d : Document) (typeLibrary : String) :
    (d.opening typeLibrary).Recorded (d.opening typeLibrary).pending d.file := by
  obtain ⟨t, ht⟩ := Engine.emits_opening d typeLibrary
  have hdeclarations : (d.opening typeLibrary).declarations = [] := ht.declarations
  refine ⟨ht.kept (kept_initial d.file typeLibrary), ht.markupFile, ?_⟩
  intro before x after heq
  rw [hdeclarations] at heq
  simp at heq

end Probe

namespace Engine

variable {U : Type} {o : Oracle U} {d : Document} {typeLibrary : String} {e last : Engine U}
  {r : Resolved} {unit : U} {before after : List Declaration} {b : Binding} {c : ContextId}
  {members : List String}

theorem Reach.recorded (h : Reach o d typeLibrary e) :
    e.probe.Recorded (d.opening typeLibrary).pending d.file :=
  h.probe_induction (Probe.recorded_opening d typeLibrary)
    (fun _ x hprogram hp => hp.declare hprogram x) fun _ hp => hp.commit

/-- The offsets of the evaluation of a binding come from where its layout says, and from the
view. -/
theorem Outcome.translate_eq (h : Outcome o d typeLibrary r last e unit)
    (hb : last.probe.declarations = before ++ .transformation b c members :: after) {i : Nat}
    (hi : i < (Declaration.transformation b c members).text.utf8ByteSize) :
    last.probe.translate (((d.opening typeLibrary).pending ++ textOf before).utf8ByteSize + i) =
        some ⟨0, ((b.layout c members).trace b i).1, ((b.layout c members).trace b i).2⟩ ∧
      last.probe.merged.sources[0]? = some d.file := by
  have hrecorded := h.finished.reach.recorded
  rw [h.last_probe] at hb ⊢
  obtain ⟨q, hq, -, hbefore, hextends⟩ := hrecorded.declared _ _ _ hb
  have hsize : ((d.opening typeLibrary).pending ++ textOf before).utf8ByteSize = q.size := by
    rw [← hbefore, String.utf8ByteSize_append]
    rfl
  -- all of the program is committed
  have hcommitted : q.size + i < e.probe.text.utf8ByteSize := by
    have hle := hextends.size_le
    unfold Probe.size at hle ⊢
    rw [h.pending_eq, String.utf8ByteSize_empty, Probe.text_declare, Probe.pending_declare,
      String.utf8ByteSize_append] at hle
    omega
  have htranslate := hq.translate_evaluation hrecorded.kept hextends hi hcommitted
  rw [hsize]
  refine ⟨htranslate, ?_⟩
  rw [← hrecorded.markupFile]
  exact hrecorded.kept.source_of_translate htranslate

end Engine

/-- A resolution that succeeds has an outcome. -/
theorem exists_outcome {U : Type} {o : Oracle U} {d : Document} {typeLibrary : String}
    {r : Resolved} (hd : d.WellFormed) (hr : resolve o d typeLibrary = .ok r) :
    ∃ e unit, Engine.Outcome o d typeLibrary r (runResolve o d typeLibrary).2 e unit := by
  rcases runResolve_cases o hd typeLibrary with ⟨r', e, unit, hr', h⟩ | ⟨f, hf, -⟩
  · cases hr'.symm.trans hr
    exact ⟨e, unit, h⟩
  · cases hf.symm.trans hr

/-! ### The stretch of a binding -/

/-- Where the stretch of the markup begins that a binding is about, which has the handler with one
byte before and one behind it, and the expression. -/
def Binding.spanStart (b : Binding) : Nat :=
  min (b.handler.location.start - 1) b.expression.location.start

/-- Where the stretch of the markup ends that a binding is about. -/
def Binding.spanStop (b : Binding) : Nat :=
  max (b.handler.location.stop + 1) b.expression.location.stop

/-- A place is a range inside of the stretch that a binding is about. -/
def Location.StaysOn (l : Location) (b : Binding) : Prop :=
  b.spanStart ≤ l.start ∧ l.start ≤ l.stop ∧ l.stop ≤ b.spanStop

instance (l : Location) (b : Binding) : Decidable (l.StaysOn b) :=
  inferInstanceAs (Decidable (_ ∧ _ ∧ _))

/-- The bytes of an evaluation come from the stretch of the binding. -/
theorem trace_mem_span {b : Binding} (hhandler : b.handler.location.start ≤ b.handler.location.stop)
    (c : ContextId) (members : List String) (i : Nat) :
    b.spanStart ≤ ((b.layout c members).trace b i).1 ∧
      ((b.layout c members).trace b i).1 ≤ b.spanStop := by
  unfold Layout.trace Binding.spanStart Binding.spanStop
  dsimp only
  split
  · next hcopied =>
    -- the copy of the handler is no longer than the handler with its quotes
    obtain ⟨hfirst, hlast⟩ := hcopied
    dsimp only [Binding.layout, Location.size] at hfirst hlast ⊢
    omega
  · split
    · next hcopied =>
      obtain ⟨hfirst, hlast⟩ := hcopied
      dsimp only [Binding.layout, Location.size] at hfirst hlast ⊢
      omega
    · omega

/-- The place that is reported for a finding: it begins at an offset, both ends are clipped to the
text, and it is empty if the offset is not exact. -/
def findingPlace (t : String) (start length : Nat) (exact : Bool) : Location :=
  let size := t.utf8ByteSize
  let start := min start size
  .ofRange t.toList start (if exact then min (offsetBehind size start length) size else start)

/-- The place of a finding whose first byte comes from the view. -/
theorem Engine.locate_of_translate {U : Type} {e : Engine U} {d : Document} {f : Finding}
    {place : Place} (hplace : e.probe.translate f.start = some place)
    (hsource : e.probe.merged.sources[place.source]? = some d.file) :
    e.locate d f = some (findingPlace d.text place.offset f.length place.exact) := by
  unfold locate
  rw [hplace]
  simp only [Option.bind_eq_bind, Option.bind_some, hsource, guard, if_true]
  rfl

section

variable {b : Binding} {t : String} {start length : Nat} {exact : Bool}

/-- A length that leads out of the words makes no range. -/
theorem findingPlace_reversed (hlength : length < UInt32.size)
    (hwraps : offsetCount t.utf8ByteSize ≤ min start t.utf8ByteSize + length) :
    (findingPlace t start length true).stop < (findingPlace t start length true).start :=
  Nat.lt_of_le_of_lt (Nat.min_le_left _ _) (offsetBehind_lt (Nat.min_le_right _ _) hlength hwraps)

/-- A place that begins on the stretch of a binding stays on it if it is empty, or if its end does
not begin anew and it is short enough or the text ends soon enough. -/
theorem staysOn_findingPlace_iff (hfirst : b.spanStart ≤ start) (hlast : start ≤ b.spanStop)
    (hsize : b.spanStart ≤ t.utf8ByteSize) (hlength : length < UInt32.size) :
    (findingPlace t start length exact).StaysOn b ↔
      exact = false ∨ min start t.utf8ByteSize + length < offsetCount t.utf8ByteSize ∧
        (start + length ≤ b.spanStop ∨ t.utf8ByteSize ≤ b.spanStop) := by
  cases exact with
  | false =>
    simp only [findingPlace, Location.StaysOn, Location.ofRange, Bool.false_eq_true, if_false,
      true_or, iff_true]
    omega
  | true =>
    rcases Nat.lt_or_ge (min start t.utf8ByteSize + length) (offsetCount t.utf8ByteSize) with
      hword | hwraps
    · simp only [findingPlace, Location.StaysOn, Location.ofRange, if_true, Bool.true_eq_false,
        false_or, offsetBehind_of_lt hword, hword, true_and]
      omega
    · have hreversed := findingPlace_reversed hlength hwraps
      refine ⟨fun hstays => absurd hstays.2.1 (Nat.not_le_of_lt hreversed), ?_⟩
      rintro (hexact | ⟨hword, -⟩)
      · cases hexact
      · omega

end

/-- **When a type error of a binding is reported on the binding.**  The program has the evaluation
of every binding that it evaluates.  A finding that begins at distance `i` from the beginning of the
evaluation is reported at the place that the layout of the evaluation gives, which is inside of the
stretch of the binding; this stretch covers the handler with one byte on each side, and the
expression.  It ends where it begins if the place is not exact, and otherwise it is as long in the
view as it is in the program, up to the end of the view.  So it stays on the binding exactly if its
place is not exact, or if its end is a word and it is short enough or the view ends soon enough.  If
its end is no word, it ends before it begins. -/
theorem finding_stays_on_binding_iff [ScriptParser] {U : Type} (o : Oracle U) {file text : String}
    {options : Markup.Options} {tokenized : Markup.Tokenized} {handlers : Handlers} {d : Document}
    (hmark : text.toList.head? ≠ some '\ufeff')
    (ht : Markup.tokenize file text.toList options = .ok tokenized)
    (hd : (build file text tokenized handlers).document = some d) (typeLibrary : String)
    {r : Resolved} (hr : resolve o d typeLibrary = .ok r) {before after : List Declaration}
    {b : Binding} {c : ContextId} {members : List String}
    (hb : (runResolve o d typeLibrary).2.probe.declarations =
      before ++ .transformation b c members :: after) :
    let head := (d.opening typeLibrary).pending ++ textOf before
    let chunk := (Declaration.transformation b c members).text
    (∃ tail, r.probe.code = head ++ (chunk ++ tail)) ∧
    ∀ (f : Finding) (i : Nat), f.file = r.probe.file → f.start = head.utf8ByteSize + i →
      i < chunk.utf8ByteSize → f.length < UInt32.size →
      let size := text.utf8ByteSize
      let start := ((b.layout c members).trace b i).1
      let exact := ((b.layout c members).trace b i).2
      ∃ l, (runResolve o d typeLibrary).2.diagnostic? d f =
          some (.ofFinding file f.code f.message f.severity (some l)) ∧
        l = findingPlace text start f.length exact ∧
        b.spanStart ≤ l.start ∧ l.start ≤ b.spanStop ∧
        (l.StaysOn b ↔ exact = false ∨ min start size + f.length < offsetCount size ∧
          (start + f.length ≤ b.spanStop ∨ size ≤ b.spanStop)) ∧
        (exact = true → offsetCount size ≤ min start size + f.length → l.stop < l.start) := by
  intro head chunk
  obtain ⟨hfile, htext⟩ : d.file = file ∧ d.text = text := by
    rw [document_eq_machine hd]
    exact ⟨rfl, rfl⟩
  obtain ⟨e, unit, h⟩ := exists_outcome (build_wellFormed hd) hr
  have hmem : .transformation b c members ∈ e.probe.declarations := by
    rw [← h.last_probe, hb]
    exact List.mem_append_right _ (List.mem_cons_self ..)
  obtain ⟨hbinding, -⟩ := h.finished.reach.listed.evaluated b c members hmem
  constructor
  · refine ⟨textOf after, ?_⟩
    rw [h.code_eq, hb, textOf_append, textOf, ← String.append_assoc]
  intro f i hf hstart hi hlength size start exact
  have hf : f.file = e.probe.file := by
    rw [hf, h.probe_eq]
    rfl
  obtain ⟨htranslate, hsource⟩ := h.translate_eq hb hi
  rw [← hstart] at htranslate
  have hlocate := Engine.locate_of_translate (d := d) htranslate hsource
  rw [htext] at hlocate
  -- the stretch of the binding begins in the view
  have hspan : b.spanStart ≤ text.utf8ByteSize := by
    obtain ⟨front, back, hview, hfront⟩ := (excerpt_of_build hmark ht hd hbinding).exists_append
    rw [String.ofList_toList] at hview
    have hsize := congrArg String.utf8ByteSize hview
    rw [String.utf8ByteSize_append, String.utf8ByteSize_append] at hsize
    have hle : b.spanStart ≤ b.expression.location.start := Nat.min_le_right _ _
    omega
  obtain ⟨hfirst, hlast⟩ := trace_mem_span (places_of_build hd hbinding).1 c members i
  refine ⟨_, ?_, rfl, ?_, ?_, staysOn_findingPlace_iff hfirst hlast hspan hlength, ?_⟩
  · rw [Engine.diagnostic?, h.last_probe, if_pos hf, hlocate, hfile]
  · exact Nat.le_min.mpr ⟨hfirst, hspan⟩
  · exact Nat.le_trans (Nat.min_le_left _ _) hlast
  · intro hexact hwraps
    rw [hexact]
    exact findingPlace_reversed hlength hwraps

/-! ### A short binding -/

/-- The binding that a declaration evaluates. -/
def Declaration.evaluated? : Declaration → Option Binding
  | .transformation b _ _ => some b
  | _ => none

/-- The declarations before the first evaluation. -/
def beforeEvaluation (cs : List Declaration) : List Declaration :=
  cs.takeWhile fun x => x.evaluated?.isNone

theorem exists_evaluation {cs : List Declaration} {b : Binding}
    (h : (cs.dropWhile fun x => x.evaluated?.isNone).head?.bind (·.evaluated?) = some b) :
    ∃ c members after, cs = beforeEvaluation cs ++ .transformation b c members :: after := by
  obtain ⟨x, hx, hb⟩ := Option.bind_eq_some_iff.mp h
  obtain ⟨after, hafter⟩ := List.head?_eq_some_iff.mp hx
  cases x with
  | transformation b' c members =>
    cases hb
    refine ⟨c, members, after, ?_⟩
    rw [← hafter]
    exact List.takeWhile_append_dropWhile.symm
  | root | directive | bindingContext | scope => cases hb

/-- A view that goes on behind a binding. -/
def overrunView : String := "<!-- ko-viewmodel View --><br data-bind='text: name'><b></b>"

/-- A type error of 32 bytes at the first evaluation of a program. -/
def openingFinding (e : Engine Nat) (d : Document) : Finding :=
  let head := (d.opening "lib").pending ++ textOf (beforeEvaluation e.probe.declarations)
  ⟨e.probe.file, head.utf8ByteSize, 32, "m", 2304, .error⟩

/-- The view is read and resolved.  The type error that begins at its one evaluation is reported
from the handler to the end of the view. -/
theorem exists_overrunView :
    ∃ tokenized d b r,
      Markup.tokenize "view.html" overrunView.toList ⟨["data-bind"], false⟩ = .ok tokenized ∧
      (build "view.html" overrunView tokenized ⟨.empty, .empty⟩).document = some d ∧
      resolve lavishOracle d "lib" = .ok r ∧
      r.probe.file = (runResolve lavishOracle d "lib").2.probe.file ∧
      (∃ c members after, (runResolve lavishOracle d "lib").2.probe.declarations =
        beforeEvaluation (runResolve lavishOracle d "lib").2.probe.declarations ++
          .transformation b c members :: after) ∧
      (b.handler.location.start, b.spanStart, b.spanStop) = (41, 40, 51) ∧
      ((runResolve lavishOracle d "lib").2.locate d
        (openingFinding (runResolve lavishOracle d "lib").2 d)).map (fun l => (l.start, l.stop)) =
          some (41, 60) := by
  have hview :
      ((Markup.tokenize "view.html" overrunView.toList ⟨["data-bind"], false⟩).toOption.bind
        fun tokenized => (build "view.html" overrunView tokenized ⟨.empty, .empty⟩).document.bind
          fun d => (((runResolve lavishOracle d "lib").2.probe.declarations.dropWhile
            fun x => x.evaluated?.isNone).head?.bind (·.evaluated?)).map fun b =>
              ((b.handler.location.start, b.spanStart, b.spanStop),
                ((runResolve lavishOracle d "lib").2.locate d
                  (openingFinding (runResolve lavishOracle d "lib").2 d)).map
                    fun l => (l.start, l.stop))) =
        some ((41, 40, 51), some (41, 60)) := by
    decide +kernel
  obtain ⟨tokenized, ht, hview⟩ := Option.bind_eq_some_iff.mp hview
  obtain ⟨d, hd, hview⟩ := Option.bind_eq_some_iff.mp hview
  obtain ⟨b, hb, hview⟩ := Option.map_eq_some_iff.mp hview
  obtain ⟨hspan, hlocate⟩ := Prod.mk.inj hview
  rcases runResolve_cases lavishOracle (build_wellFormed hd) "lib" with
    ⟨r, e, unit, hr, h⟩ | ⟨f, -, hfailed⟩
  · have hfile : r.probe.file = (runResolve lavishOracle d "lib").2.probe.file := by
      rw [h.probe_eq, h.last_probe]
      rfl
    exact ⟨tokenized, d, b, r, Except.toOption_eq_some.mp ht, hd, hr, hfile, exists_evaluation hb,
      hspan, hlocate⟩
  · exact absurd (fun call _ => failure?_lavishOracle call) hfailed.not_answered

theorem finding_stays_on_binding_iff_overrunView :
    ∃ tokenized d r before after b c members,
      Markup.tokenize "view.html" overrunView.toList ⟨["data-bind"], false⟩ = .ok tokenized ∧
      (build "view.html" overrunView tokenized ⟨.empty, .empty⟩).document = some d ∧
      resolve lavishOracle d "lib" = .ok r ∧
      (runResolve lavishOracle d "lib").2.probe.declarations =
        before ++ .transformation b c members :: after ∧
      ∀ f : Finding, f.file = r.probe.file →
        f.start = ((d.opening "lib").pending ++ textOf before).utf8ByteSize →
        f.length < UInt32.size →
        ∃ l, (runResolve lavishOracle d "lib").2.diagnostic? d f =
            some (.ofFinding "view.html" f.code f.message f.severity (some l)) ∧
          (l.StaysOn b ↔ f.length ≤ 10) ∧ (UInt32.size ≤ 41 + f.length → l.stop < l.start) := by
  obtain ⟨tokenized, d, b, r, ht, hd, hr, -, ⟨c, members, after, hb⟩, hspan, -⟩ :=
    exists_overrunView
  refine ⟨tokenized, d, r, _, after, b, c, members, ht, hd, hr, hb, ?_⟩
  intro f hfile hstart hlength
  obtain ⟨-, hfinding⟩ := finding_stays_on_binding_iff lavishOracle (by decide) ht hd "lib" hr hb
  have hpos : 0 < (Declaration.transformation b c members).text.utf8ByteSize :=
    Nat.pos_of_ne_zero (mt String.utf8ByteSize_eq_zero_iff.mp (Probe.text_ne_empty _))
  obtain ⟨l, hdiagnostic, -, -, -, hstays, hreversed⟩ := hfinding f 0 hfile hstart hpos hlength
  simp only [Prod.mk.injEq] at hspan
  obtain ⟨hhandler, -, hstop⟩ := hspan
  have hsize : overrunView.utf8ByteSize = 60 := by decide +kernel
  have hliteral := (b.layout c members).literal_pos
  have hexpression := (b.layout c members).literalStop_lt
  -- the first byte of an evaluation is that of an anchor
  have htrace : (b.layout c members).trace b 0 = (41, true) := by
    rw [(b.layout c members).trace_of_gap b 0 (by omega) (by omega) (by omega), hhandler]
    rfl
  have hcount : offsetCount 60 = 4294967296 := by decide
  rw [htrace, hsize, hcount] at hstays hreversed
  refine ⟨l, hdiagnostic, ?_, fun hwraps => hreversed rfl hwraps⟩
  rw [hstays, hstop]
  simp only [Bool.true_eq_false, false_or]
  omega

/-- A type error of 32 bytes that begins where the evaluation of a binding does is reported on the
element behind it. -/
theorem finding_leaves_binding :
    ∃ tokenized d r before after b c members l,
      Markup.tokenize "view.html" overrunView.toList ⟨["data-bind"], false⟩ = .ok tokenized ∧
      (build "view.html" overrunView tokenized ⟨.empty, .empty⟩).document = some d ∧
      resolve lavishOracle d "lib" = .ok r ∧
      (runResolve lavishOracle d "lib").2.probe.declarations =
        before ++ .transformation b c members :: after ∧
      (runResolve lavishOracle d "lib").2.diagnostic? d
          ⟨r.probe.file, ((d.opening "lib").pending ++ textOf before).utf8ByteSize, 32, "m", 2304,
            .error⟩ =
        some (.ofFinding d.file 2304 "m" .error (some l)) ∧
      (l.start, l.stop) = (41, 60) ∧ (b.spanStart, b.spanStop) = (40, 51) ∧ ¬l.StaysOn b := by
  obtain ⟨tokenized, d, b, r, ht, hd, hr, hfile, ⟨c, members, after, hb⟩, hspan, hlocate⟩ :=
    exists_overrunView
  obtain ⟨l, hl, hrange⟩ := Option.map_eq_some_iff.mp hlocate
  simp only [Prod.mk.injEq] at hspan hrange
  refine ⟨tokenized, d, r, _, after, b, c, members, l, ht, hd, hr, hb, ?_,
    Prod.ext hrange.1 hrange.2, Prod.ext hspan.2.1 hspan.2.2, ?_⟩
  · rw [Engine.diagnostic?, if_pos hfile, hfile]
    exact congrArg (fun l => some (Diagnostic.ofFinding _ _ _ _ l)) hl
  · rintro ⟨-, -, hstop⟩
    omega

end ViewLint
