import ViewLint.Proofs.Probe.Text
import ViewLint.Proofs.SourceMap.Compose

/-!
# Revisions keep where text comes from

The map of a revision sends what was committed before to the revision before, and what was pending
to the markup.  Composed with the map of the revision before, it sends every byte that came from
the markup there still, whatever the revision in which the byte was emitted.

## Main definitions

* `Mark.Sends`, `Probe.MapsTo` — a byte of the program comes from a byte of the markup.
* `Probe.Sound` — the marks stand in a row, and the merged map covers the committed text.
* `evaluationHead` — what stands before the expression in the evaluation of a binding.

## Main results

* `Probe.sends_nextMap` — the map of the next revision.
* `Probe.Sound.commit`, `Probe.Sound.mapsTo_commit` — what a revision keeps.
* `Probe.mapsTo_declare_transformation` — the copy of an expression comes from its place.
-/

namespace ViewLint

/-- A mark of a text that is pending behind `size` bytes holds an offset of the whole text, and
sends it to an offset of the markup. -/
def Mark.Sends (k : Mark) (size o q : Nat) : Prop :=
  size + k.start ≤ o ∧ o < size + k.stop ∧ q = k.sourceStart + (o - (size + k.start))

/-! ### Segments of marks -/

namespace SourceMap

variable {m : SourceMap}

theorem sources_addSegment (m : SourceMap) (start stop source sourceStart : Nat)
    (name : Option String) :
    (m.addSegment start stop source sourceStart name).sources = m.sources := by
  unfold addSegment
  split
  · rfl
  · exact (addName_spec m name).1

/-- Marks in a row become segments one behind the other. -/
theorem Bounded.foldl_marks {limit size first last i : Nat} {file : String} {marks : List Mark}
    (h : m.Bounded limit) (hlimit : limit ≤ size + first) (hi : m.sources[i]? = some file)
    (hrow : InRow first last marks) :
    let m' := marks.foldl
      (fun m k => m.addSegment (size + k.start) (size + k.stop) i k.sourceStart k.name) m
    m'.Bounded (size + last) ∧ ∀ o t q, m'.Sends o t q ↔
      m.Sends o t q ∨ t = file ∧ ∃ k ∈ marks, k.Sends size o q := by
  induction marks generalizing m limit first with
  | nil =>
    have hle : first ≤ last := hrow
    refine ⟨h.mono (by omega), ?_⟩
    intro o t q
    simp
  | cons k marks ih =>
    obtain ⟨hfirst, hk, hmarks⟩ := hrow
    obtain ⟨hbounded, hsends⟩ := @Bounded.addSegment m limit (size + k.start) (size + k.stop) i
      k.sourceStart file h (by omega) hi k.name
    rw [Nat.max_eq_right (by omega)] at hbounded
    obtain ⟨hbounded', hsends'⟩ :=
      ih hbounded (Nat.le_refl _) (by rw [sources_addSegment]; exact hi) hmarks
    refine ⟨hbounded', ?_⟩
    intro o t q
    rw [List.foldl_cons, hsends', hsends, List.exists_mem_cons_iff, or_assoc, and_or_left]
    rfl

/-- A map that sends no offset from some one on ends there. -/
theorem WellFormed.bounded (h : m.WellFormed) {limit : Nat}
    (hlt : ∀ o t q, m.Sends o t q → o < limit) : m.Bounded limit := by
  refine ⟨h, ?_⟩
  intro s hs
  have hnonempty := h.nonempty s hs
  -- the last offset of the segment is sent
  have hlast := hlt (s.stop - 1) _ _
    ⟨s, hs, h.getElem?_sources hs, by omega, by omega, rfl⟩
  omega

theorem Bounded.lt_of_sends {limit o q : Nat} {t : String} (h : m.Bounded limit)
    (hsends : m.Sends o t q) : o < limit := by
  obtain ⟨s, hs, -, -, hlt, -⟩ := hsends
  exact Nat.lt_of_lt_of_le hlt (h.stop_le s hs)

end SourceMap

namespace Probe

variable {p p' : Probe} {t : String} {o q : Nat}

/-! ### The map of the next revision -/

/-- No revision has the name of the markup. -/
theorem revisionName_ne_markupFile (p : Probe) (n : Nat) : p.revisionName n ≠ p.markupFile := by
  intro h
  have hsize := congrArg String.utf8ByteSize h
  rw [revisionName, file, String.utf8ByteSize_append, String.utf8ByteSize_append,
    String.utf8ByteSize_append] at hsize
  have hts : ".ts".utf8ByteSize = 3 := rfl
  omega

/-- The part of the next map that goes to the revision before. -/
def backMap (p : Probe) : SourceMap :=
  match p.revisions with
  | 0 => .empty (p.revisionName p.revisions)
  | n + 1 =>
    let (previous, m) := (SourceMap.empty (p.revisionName p.revisions)).addSource (p.revisionName n)
    m.addSegment 0 p.text.utf8ByteSize previous 0 none

theorem nextMap_eq (p : Probe) :
    p.nextMap = p.marks.foldl
      (fun m k => m.addSegment (p.text.utf8ByteSize + k.start) (p.text.utf8ByteSize + k.stop)
        (p.backMap.addSource p.markupFile).1 k.sourceStart k.name)
      (p.backMap.addSource p.markupFile).2 := by
  unfold nextMap backMap
  cases p.revisions <;> rfl

theorem sends_backMap (p : Probe) :
    p.backMap.Bounded p.text.utf8ByteSize ∧ ∀ o t q, p.backMap.Sends o t q ↔
      ∃ n, p.revisions = n + 1 ∧ t = p.revisionName n ∧ o < p.text.utf8ByteSize ∧ q = o := by
  have hempty := SourceMap.bounded_empty (p.revisionName p.revisions)
  have hnone : ∀ o t q, ¬(SourceMap.empty (p.revisionName p.revisions)).Sends o t q :=
    fun o t q hsends => Nat.not_lt_zero o (hempty.lt_of_sends hsends)
  unfold backMap
  cases hrevisions : p.revisions with
  | zero =>
    rw [hrevisions] at hempty hnone
    refine ⟨hempty.mono (Nat.zero_le _), ?_⟩
    intro o t q
    refine iff_of_false (hnone o t q) ?_
    rintro ⟨n, hn, -⟩
    cases hn
  | succ n =>
    rw [hrevisions] at hempty hnone
    obtain ⟨hbounded, hsends⟩ := SourceMap.appends_addSegment 0 p.text.utf8ByteSize 0
      (p.revisionName n) none _ 0 hempty (Nat.le_refl 0)
    rw [Nat.max_eq_right (Nat.zero_le _)] at hbounded
    refine ⟨hbounded, ?_⟩
    intro o t q
    refine (hsends o t q).trans ?_
    constructor
    · rintro (hold | ⟨rfl, -, hlt, rfl⟩)
      · exact absurd hold (hnone o t q)
      · exact ⟨n, rfl, rfl, hlt, by omega⟩
    · rintro ⟨n', hn', rfl, hlt, rfl⟩
      cases hn'
      exact .inr ⟨rfl, Nat.zero_le _, hlt, by omega⟩

/-- The next map sends what is committed to the revision before, and marks to the markup. -/
theorem sends_nextMap (h : p.Tidy) :
    p.nextMap.Bounded (p.text ++ p.pending).utf8ByteSize ∧ ∀ o t q, p.nextMap.Sends o t q ↔
      (∃ n, p.revisions = n + 1 ∧ t = p.revisionName n ∧ o < p.text.utf8ByteSize ∧ q = o) ∨
      t = p.markupFile ∧ ∃ k ∈ p.marks, k.Sends p.text.utf8ByteSize o q := by
  obtain ⟨hback, hsends⟩ := p.sends_backMap
  obtain ⟨hbounded, hmarks⟩ := (hback.addSource p.markupFile).foldl_marks (Nat.le_add_right _ 0)
    (SourceMap.getElem?_addSource p.backMap p.markupFile) h
  rw [String.utf8ByteSize_append, nextMap_eq]
  refine ⟨hbounded, ?_⟩
  intro o t q
  refine (hmarks o t q).trans ?_
  rw [hback.wellFormed.sends_addSource, hsends]

theorem file_foldl_addSegment (size i : Nat) (m : SourceMap) (marks : List Mark) :
    (marks.foldl (fun m k => m.addSegment (size + k.start) (size + k.stop) i k.sourceStart k.name)
      m).file = m.file := by
  induction marks generalizing m with
  | nil => rfl
  | cons k marks ih => rw [List.foldl_cons, ih, SourceMap.file_addSegment]

theorem file_nextMap (p : Probe) : p.nextMap.file = p.revisionName p.revisions := by
  rw [nextMap_eq, file_foldl_addSegment]
  change p.backMap.file = _
  unfold backMap
  split
  · next h => rfl
  · next n h => exact SourceMap.file_addSegment ..

/-! ### Soundness -/

/-- A byte of the whole text comes from a byte of the markup, by the map of the committed text or
by a mark. -/
def MapsTo (p : Probe) (o q : Nat) : Prop :=
  p.merged.Sends o p.markupFile q ∨ ∃ k ∈ p.marks, k.Sends p.text.utf8ByteSize o q

/-- The marks stand in a row, and the merged map is one of the committed text, which is that of
the latest revision. -/
structure Sound (p : Probe) : Prop where
  tidy : p.Tidy
  merged : p.merged.Bounded p.text.utf8ByteSize
  file : ∀ n, p.revisions = n + 1 → p.merged.file = p.revisionName n
  fresh : p.revisions = 0 → p.text = ""

theorem sound_initial (markupFile typeLibrary : String) :
    (initial markupFile typeLibrary).Sound := by
  refine ⟨Nat.zero_le _, SourceMap.bounded_empty "", ?_, fun _ => rfl⟩
  intro n hn
  cases hn

theorem Emits.sound (h : Emits p p' t) (hp : p.Sound) : p'.Sound := by
  have hrevisions : p'.revisions = p.revisions := congrArg Chain.size h.chain
  have hname : p'.revisionName = p.revisionName := by
    funext n
    rw [revisionName, revisionName, Probe.file, Probe.file, h.markupFile]
  refine ⟨h.tidy hp.tidy, ?_, ?_, ?_⟩
  · rw [h.merged, h.text]
    exact hp.merged
  · rw [h.merged, hrevisions, hname]
    exact hp.file
  · rw [h.text, hrevisions]
    exact hp.fresh

theorem Emits.mapsTo (h : Emits p p' t) (hp : p.Tidy) (ho : p.MapsTo o q) : p'.MapsTo o q := by
  obtain ⟨new, hnew, -⟩ := h.marks hp
  rw [MapsTo, h.merged, h.markupFile, h.text, hnew]
  refine ho.imp_right ?_
  rintro ⟨k, hk, hsends⟩
  exact ⟨k, List.mem_append_left new hk, hsends⟩

/-- A revision keeps where the text comes from, and its map covers it. -/
theorem Sound.mapsTo_commit (h : p.Sound) (ho : p.MapsTo o q) : p.commit.2.MapsTo o q := by
  obtain ⟨hnext, hsends⟩ := sends_nextMap h.tidy
  left
  change (if p.revisions = 0 then p.nextMap else p.nextMap.mergeWith p.merged).Sends o
    p.markupFile q
  have hmark : (∃ k ∈ p.marks, k.Sends p.text.utf8ByteSize o q) →
      p.nextMap.Sends o p.markupFile q := fun hk => (hsends _ _ _).mpr (.inr ⟨rfl, hk⟩)
  cases hrevisions : p.revisions with
  | zero =>
    rw [if_pos rfl]
    rcases ho with hold | hk
    · -- nothing has been committed
      have hlt := h.merged.lt_of_sends hold
      rw [h.fresh hrevisions] at hlt
      exact absurd hlt (Nat.not_lt_zero o)
    · exact hmark hk
  | succ n =>
    rw [if_neg (Nat.succ_ne_zero n),
      (SourceMap.sends_mergeWith hnext.wellFormed h.merged.wellFormed).2, h.file n hrevisions]
    rcases ho with hold | hk
    · -- over the revision before
      have hlt := h.merged.lt_of_sends hold
      exact ⟨p.revisionName n, o, (hsends _ _ _).mpr (.inl ⟨n, hrevisions, rfl, hlt, rfl⟩),
        .inr ⟨rfl, hold⟩⟩
    · exact ⟨p.markupFile, q, hmark hk,
        .inl ⟨(p.revisionName_ne_markupFile n).symm, rfl, rfl⟩⟩

theorem Sound.commit (h : p.Sound) : p.commit.2.Sound := by
  obtain ⟨hnext, hsends⟩ := sends_nextMap h.tidy
  refine ⟨Nat.le_refl 0, ?_, ?_, ?_⟩
  · change (if p.revisions = 0 then p.nextMap else p.nextMap.mergeWith p.merged).Bounded
      (p.text ++ p.pending).utf8ByteSize
    split
    · exact hnext
    · obtain ⟨hwf, hmerged⟩ := SourceMap.sends_mergeWith hnext.wellFormed h.merged.wellFormed
      refine hwf.bounded ?_
      intro o t q ho
      obtain ⟨source, q', hq', -⟩ := (hmerged o t q).mp ho
      exact hnext.lt_of_sends hq'
  · intro n hn
    have hrevisions : p.revisions = n := Nat.succ.inj hn
    change (if p.revisions = 0 then p.nextMap else p.nextMap.mergeWith p.merged).file =
      p.revisionName n
    rw [← hrevisions, ← file_nextMap]
    split
    · rfl
    · exact SourceMap.file_mergeWith _ _
  · intro hn
    cases hn

/-- Once everything is committed, all is in the merged map. -/
theorem Sound.sends_of_mapsTo (h : p.Sound) (hpending : p.pending = "") (ho : p.MapsTo o q) :
    p.merged.Sends o p.markupFile q := by
  refine ho.resolve_right ?_
  rintro ⟨k, hk, hstart, hstop, -⟩
  obtain ⟨-, -, hle⟩ := h.tidy.bounds hk
  rw [hpending, String.utf8ByteSize_empty] at hle
  omega

end Probe

/-! ### Copies of expressions -/

section

variable (b : Binding) (context : ContextId) (members : List String)

/-- What stands before the expression in the evaluation of a binding. -/
def evaluationHead : String :=
  "function " ++ transformationName b.id ++ "($context: typeof " ++ contextName context ++
    ") \x7b\n" ++
  ("const \x7b " ++ ", ".intercalate (members.filter isBindable) ++
    " \x7d = \x7b ...$context, ...$context.$data \x7d\n") ++
  "return getBindingContextFactory(" ++ Text.quote b.handler.value ++ ")("

/-- What stands behind the expression in the evaluation of a binding. -/
def evaluationTail : String :=
  ", $context)\n\x7d\n" ++ constantText (bindingName b.id)
    (" = " ++ transformationName b.id ++ "(" ++ contextName context ++ ")\n")

/-- The evaluation of a binding has a copy of its expression. -/
theorem text_transformation : (Declaration.transformation b context members).text =
    evaluationHead b context members ++ (b.expression.text ++ evaluationTail b context) := by
  have htext : (Declaration.transformation b context members).text =
      evaluationHead b context members ++ b.expression.text ++ ", $context)\n\x7d\n" ++
        constantText (bindingName b.id)
          (" = " ++ transformationName b.id ++ "(" ++ contextName context ++ ")\n") := rfl
  rw [htext, evaluationTail, String.append_assoc, String.append_assoc]

namespace Probe

variable (p : Probe)

/-- A program with all that stands before the expression in the evaluation of a binding. -/
def emitHead : Probe :=
  ((((p.emit ("function " ++ transformationName b.id ++ "($context: typeof " ++
    contextName context ++ ") \x7b\n")).emit
    ("const \x7b " ++ ", ".intercalate (members.filter isBindable) ++
      " \x7d = \x7b ...$context, ...$context.$data \x7d\n")).emit
    "return getBindingContextFactory(").emitQuoted b.handler.value b.handler.location).emit ")("

theorem emits_emitHead :
    Emits p (p.emitHead b context members) (evaluationHead b context members) :=
  ((((emits_emit _ _).trans (emits_emit _ _)).trans (emits_emit _ _)).trans
    (emits_emitAt _ _ _ _ _)).trans (emits_emit _ _)

/-- The program with the whole evaluation of a binding, before it is anchored. -/
def emitEvaluation : Probe :=
  (((p.emitHead b context members).emitMapped b.expression.text b.expression.location none).emit
    ", $context)\n\x7d\n").emit ("const " ++ bindingName b.id ++ " = " ++
      transformationName b.id ++ "(" ++ contextName context ++ ")\n")

theorem emitTransformation_eq : p.emitTransformation b context members =
    (p.emitEvaluation b context members).anchor p.pending.utf8ByteSize b.handler.location.start :=
  rfl

/-- The mark of the copy of an expression. -/
def expressionMark : Mark :=
  let start := p.pending.utf8ByteSize + (evaluationHead b context members).utf8ByteSize
  ⟨start, start + min b.expression.text.utf8ByteSize b.expression.location.size,
    b.expression.location.start, none⟩

theorem expressionMark_mem (hp : p.Tidy) :
    p.expressionMark b context members ∈ (p.emitTransformation b context members).marks := by
  have hhead := emits_emitHead b context members p
  have hevaluation : Emits p (p.emitEvaluation b context members) _ :=
    ((hhead.trans (emits_emitAt _ _ _ _ _)).trans (emits_emit _ _)).trans (emits_emit _ _)
  have hsize : (p.emitHead b context members).pending.utf8ByteSize =
      p.pending.utf8ByteSize + (evaluationHead b context members).utf8ByteSize := by
    rw [hhead.pending, String.utf8ByteSize_append]
  have hmem : p.expressionMark b context members ∈ (p.emitEvaluation b context members).marks := by
    unfold expressionMark
    rw [← hsize]
    exact List.mem_append_right _ (List.mem_singleton_self _)
  obtain ⟨new, hnew, hrow⟩ := hevaluation.marks hp
  rw [hnew] at hmem
  rw [emitTransformation_eq, marks_anchor hnew hp hrow]
  rcases List.mem_append.mp hmem with hold | hmem
  · exact List.mem_append_left _ hold
  · exact List.mem_append_right _ (mem_anchored hmem _ _ _)

/-- The copy of an expression comes, byte for byte, from the place of the expression. -/
theorem mapsTo_declare_transformation (hp : p.Tidy) {i : Nat}
    (hi : i < b.expression.text.utf8ByteSize) (hi' : i < b.expression.location.size) :
    (p.declare (.transformation b context members)).MapsTo
      ((p.text ++ p.pending ++ evaluationHead b context members).utf8ByteSize + i)
      (b.expression.location.start + i) := by
  refine .inr ⟨_, expressionMark_mem b context members
    { p with declarations := p.declarations ++ [.transformation b context members] } hp, ?_⟩
  rw [text_declare, String.utf8ByteSize_append, String.utf8ByteSize_append]
  unfold Mark.Sends expressionMark
  dsimp only
  omega

end Probe

end

end ViewLint
