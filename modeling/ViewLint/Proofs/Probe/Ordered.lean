import ViewLint.Proofs.Probe.Trail
import ViewLint.Proofs.SourceMap.Ordered

/-!
# The maps of a program are in order

Whatever is done with a program, it is done in steps: text is put behind the pending text, perhaps
with a mark, and in the end the gaps since the beginning of an operation may be anchored.  After
each of these steps the marks are ordered, do not overlap, and stay in the pending text.  So a
revision adds its segments in order, to its own map and to the merged one, and both are well-formed
maps of the committed text.

## Main definitions

* `Probe.MarksOrdered` — the marks are ordered, apart from each other and in the pending text.
* `Probe.Writes` — one program is another one with text emitted piece by piece.
* `Probe.nextMap?` — the map of the next revision, with a look at each segment that is added.
* `Probe.Charted` — the maps of all revisions are maps of the committed text.

## Main results

* `Probe.writes_or_anchors` — an operation emits pieces of text, may anchor them, or commits.
* `Probe.Writes.row` — new marks stand in the new text.
* `Probe.Tidy.nextMap?_eq` — no look fails when a revision is made.
* `Probe.Charted.run` — the maps of all revisions, after any operations.
* `program_maps_stay_in_order` — all of it, for every program.
-/

namespace ViewLint

theorem InRow.pairwise {first last : Nat} {marks : List Mark} (h : InRow first last marks) :
    marks.Pairwise fun k l => k.start ≤ l.start ∧ k.stop ≤ l.start := by
  induction marks generalizing first with
  | nil => exact .nil
  | cons k marks ih =>
    obtain ⟨-, hk, hmarks⟩ := h
    refine List.pairwise_cons.mpr ⟨?_, ih hmarks⟩
    intro l hl
    have hstart := (hmarks.bounds hl).1
    exact ⟨Nat.le_trans hk hstart, hstart⟩

namespace Probe

variable {p q : Probe}

/-- The marks of a program are ordered, do not overlap, and stay in its pending text. -/
structure MarksOrdered (p : Probe) : Prop where
  ordered : p.marks.Pairwise fun k l => k.start ≤ l.start
  disjoint : p.marks.Pairwise fun k l => k.stop ≤ l.start
  within : ∀ k ∈ p.marks, k.start ≤ k.stop ∧ k.stop ≤ p.pending.utf8ByteSize

theorem Tidy.marksOrdered (h : p.Tidy) : p.MarksOrdered :=
  ⟨(InRow.pairwise h).imp And.left, (InRow.pairwise h).imp And.right, fun _ hk => (h.bounds hk).2⟩

/-- Among ordered marks, halving finds those that begin before an offset. -/
theorem MarksOrdered.bisect_eq (h : p.MarksOrdered) (start : Nat) :
    bisect (·.start < start) p.marks.toArray = (p.marks.takeWhile (·.start < start)).length := by
  have hstarts : p.marks.toArray.toList.Pairwise fun k l =>
      decide (l.start < start) = true → decide (k.start < start) = true := by
    refine h.ordered.imp ?_
    intro k l hkl hl
    rw [decide_eq_true_eq] at hl ⊢
    omega
  exact bisect_eq_length_takeWhile hstarts

/-! ### Pieces of text -/

/-- A program with text that has been emitted piece by piece, with or without a mark, and perhaps
with declarations that have been noted on the way. -/
inductive Writes (p : Probe) : Probe → Prop
  | refl : Writes p p
  | note {q : Probe} (h : Writes p q) (d : Declaration) :
    Writes p { q with declarations := q.declarations ++ [d] }
  | emit {q : Probe} (h : Writes p q) (text : String) : Writes p (q.emit text)
  | emitAt {q : Probe} (h : Writes p q) (text : String) (sourceStart size : Nat)
    (name : Option String) : Writes p (q.emitAt text sourceStart size name)

namespace Writes

/-- New marks stand in the new text. -/
theorem row (h : p.Writes q) : ∃ new, q.marks = p.marks ++ new ∧
    InRow p.pending.utf8ByteSize q.pending.utf8ByteSize new := by
  induction h with
  | refl => exact ⟨[], (List.append_nil _).symm, Nat.le_refl _⟩
  | note h d ih => exact ih
  | @emit q h text ih =>
    obtain ⟨new, hnew, hrow⟩ := ih
    refine ⟨new ++ [], by rw [List.append_nil]; exact hnew, hrow.append ?_⟩
    rw [InRow, size_pending_emit]
    exact Nat.le_add_right _ _
  | @emitAt q h text sourceStart size name ih =>
    obtain ⟨new, hnew, hrow⟩ := ih
    let start := q.pending.utf8ByteSize
    let mark : Mark := ⟨start, start + min text.utf8ByteSize size, sourceStart, name⟩
    have hmark : mark.start ≤ mark.stop := Nat.le_add_right _ _
    refine ⟨new ++ [mark], ?_, hrow.append ⟨Nat.le_refl _, hmark, ?_⟩⟩
    · rw [← List.append_assoc, ← hnew]
      rfl
    · change _ ≤ (q.emit text).pending.utf8ByteSize
      rw [size_pending_emit]
      exact Nat.add_le_add_left (Nat.min_le_left _ _) _

/-- What has been committed stays as it is. -/
theorem committed (h : p.Writes q) : q.text = p.text ∧ q.chain = p.chain := by
  induction h with
  | refl => exact ⟨rfl, rfl⟩
  | note h d ih => exact ih
  | emit h text ih => exact ih
  | emitAt h text sourceStart size name ih => exact ih

theorem tidy (h : p.Writes q) (hp : p.Tidy) : q.Tidy := by
  obtain ⟨new, hnew, hrow⟩ := h.row
  rw [Tidy, hnew]
  exact InRow.append hp hrow

/-- Anchors in the gaps of the new text keep the marks in a row. -/
theorem tidy_anchor (h : p.Writes q) (hp : p.Tidy) (sourceStart : Nat) :
    (q.anchor p.pending.utf8ByteSize sourceStart).Tidy := by
  obtain ⟨new, hnew, hrow⟩ := h.row
  rw [Tidy, marks_anchor hnew hp hrow]
  exact InRow.append hp (hrow.anchored sourceStart)

theorem emitType (h : p.Writes q) (type : TypeReference) : p.Writes (q.emitType type) := by
  unfold Probe.emitType
  split
  · exact h.emitAt _ _ _ _
  · exact (h.emit _).emitAt _ _ _ _

theorem emitSymbol (h : p.Writes q) (s : ImportSymbol) : p.Writes (q.emitSymbol s) := by
  unfold Probe.emitSymbol
  split
  · exact h.emitAt _ _ _ _
  · dsimp only
    split
    · exact ((h.emit _).emit _).emitAt _ _ _ _
    · exact ((h.emitAt _ _ _ _).emit _).emitAt _ _ _ _

theorem emitSymbols (h : p.Writes q) (ss : List ImportSymbol) : p.Writes (q.emitSymbols ss) := by
  induction ss generalizing q with
  | nil => exact h
  | cons s ss ih =>
    cases ss with
    | nil => exact h.emitSymbol s
    | cons s' ss => exact ih ((h.emitSymbol s).emit _)

theorem emitImport (h : p.Writes q) (i : Import) : p.Writes (q.emitImport i) := by
  unfold Probe.emitImport
  dsimp only
  split
  · exact ((((h.emit _).emitAt _ _ _ _).emit _).emitAt _ _ _ _).emit _
  · exact (((((h.emit _).emitSymbols _).emit _).emit _).emitAt _ _ _ _).emit _

/-- One member of a list after the other. -/
theorem foldl {α : Type} {f : Probe → α → Probe} (hf : ∀ q x, p.Writes q → p.Writes (f q x))
    (h : p.Writes q) (xs : List α) : p.Writes (xs.foldl f q) := by
  induction xs generalizing q with
  | nil => exact h
  | cons x xs ih => exact ih (hf q x h)

end Writes

/-- An operation emits pieces of text, and may anchor them, unless it makes a revision. -/
theorem writes_or_anchors (p : Probe) (op : Operation) : op = .commit ∨ ∃ q, p.Writes q ∧
    (p.perform op = q ∨ ∃ sourceStart,
      p.perform op = q.anchor p.pending.utf8ByteSize sourceStart) := by
  cases op with
  | emit text => exact .inr ⟨_, Writes.refl.emit text, .inl rfl⟩
  | emitMapped text location name => exact .inr ⟨_, Writes.refl.emitAt _ _ _ _, .inl rfl⟩
  | emitImports imports =>
    exact .inr ⟨_, Writes.refl.foldl (fun q i hq => hq.emitImport i) imports, .inl rfl⟩
  | emitHandlers handlers =>
    refine .inr ⟨_, ((Writes.refl.emit _).foldl ?_ handlers).emit _, .inl rfl⟩
    intro q name hq
    exact hq.emit _
  | declare d =>
    right
    have hnoted : p.Writes _ := Writes.refl.note d
    cases d with
    | root context type => exact ⟨_, ((hnoted.emit _).emitType type).emit _, .inl rfl⟩
    | directive context type parent => exact ⟨_, ((hnoted.emit _).emitType type).emit _, .inl rfl⟩
    | bindingContext context binding => exact ⟨_, hnoted.emit _, .inl rfl⟩
    | scope context => exact ⟨_, hnoted.emit _, .inl rfl⟩
    | transformation b context members =>
      exact ⟨_, (((((((hnoted.emit _).emit _).emit _).emitAt _ _ _ _).emit _).emitAt _ _ _ _).emit
        _).emit _, .inr ⟨b.handler.location.start, rfl⟩⟩
  | commit => exact .inl rfl

/-! ### Revisions -/

/-- The map of the next revision, where all segments are added in order. -/
def nextMap? (p : Probe) : Option SourceMap := do
  let size := p.text.utf8ByteSize
  let m := SourceMap.empty (p.revisionName p.revisions)
  let m ←
    match p.revisions with
    | 0 => some m
    | n + 1 =>
      let (previous, m) := m.addSource (p.revisionName n)
      m.addSegment? 0 size previous 0 none
  let (markup, m) := m.addSource p.markupFile
  p.marks.foldlM
    (fun m k => m.addSegment? (size + k.start) (size + k.stop) markup k.sourceStart k.name) m

/-- Marks in a row become segments that are added in order. -/
theorem foldlM_marks {m : SourceMap} {limit size first last i : Nat} {file : String}
    {marks : List Mark} (h : m.Bounded limit) (hlimit : limit ≤ size + first)
    (hi : m.sources[i]? = some file) (hrow : InRow first last marks) :
    marks.foldlM
        (fun m k => m.addSegment? (size + k.start) (size + k.stop) i k.sourceStart k.name) m =
      some (marks.foldl
        (fun m k => m.addSegment (size + k.start) (size + k.stop) i k.sourceStart k.name) m) := by
  induction marks generalizing m limit first with
  | nil => rfl
  | cons k marks ih =>
    obtain ⟨hfirst, hk, hmarks⟩ := hrow
    have hle : limit ≤ size + k.start := by omega
    have hbounded : (m.addSegment (size + k.start) (size + k.stop) i k.sourceStart k.name).Bounded
        (max (size + k.start) (size + k.stop)) := (h.addSegment hle hi k.name).1
    rw [Nat.max_eq_right (by omega)] at hbounded
    rw [List.foldlM_cons, h.addSegment?_eq hle, List.foldl_cons]
    exact ih hbounded (Nat.le_refl _) (by rw [SourceMap.sources_addSegment]; exact hi) hmarks

/-- No look fails when a revision is made. -/
theorem Tidy.nextMap?_eq (h : p.Tidy) : p.nextMap? = some p.nextMap := by
  obtain ⟨hback, -⟩ := p.sends_backMap
  have hmarks := foldlM_marks (hback.addSource p.markupFile) (Nat.le_add_right _ 0)
    (SourceMap.getElem?_addSource p.backMap p.markupFile) h
  rw [nextMap_eq, ← hmarks]
  have hempty := SourceMap.bounded_empty (p.revisionName p.revisions)
  unfold nextMap? backMap
  cases hrevisions : p.revisions with
  | zero => rfl
  | succ n =>
    rw [hrevisions] at hempty
    have hfirst := (hempty.addSource (p.revisionName n)).addSegment?_eq (Nat.le_refl 0)
      p.text.utf8ByteSize ((SourceMap.empty (p.revisionName (n + 1))).addSource
        (p.revisionName n)).1 0
      none
    dsimp only
    rw [hfirst]
    rfl

/-- The maps of all revisions are maps of the committed text. -/
structure Charted (p : Probe) : Prop extends p.Kept where
  maps : ∀ m ∈ p.chain.maps, m.Bounded p.text.utf8ByteSize

theorem charted_initial (markupFile typeLibrary : String) :
    (initial markupFile typeLibrary).Charted :=
  ⟨kept_initial markupFile typeLibrary, List.forall_mem_nil _⟩

/-- An operation leaves the maps as they are, or puts one before them. -/
theorem Charted.perform (h : p.Charted) (op : Operation) : (p.perform op).Charted := by
  refine ⟨(h.toKept.perform op).1, ?_⟩
  rcases p.writes_or_anchors op with rfl | ⟨q, hq, heq⟩
  · change ∀ m ∈ p.nextMap :: p.chain.maps, m.Bounded (p.text ++ p.pending).utf8ByteSize
    refine List.forall_mem_cons.mpr ⟨(sends_nextMap h.tidy).1, ?_⟩
    intro m hm
    exact (h.maps m hm).mono (by rw [String.utf8ByteSize_append]; exact Nat.le_add_right _ _)
  · obtain ⟨htext, hchain⟩ := hq.committed
    have hsame : (p.perform op).text = p.text ∧ (p.perform op).chain = p.chain := by
      rcases heq with heq | ⟨sourceStart, heq⟩
      · rw [heq]
        exact ⟨htext, hchain⟩
      · rw [heq]
        exact ⟨htext, hchain⟩
    rw [hsame.1, hsame.2]
    exact h.maps

theorem Charted.run (h : p.Charted) (ops : List Operation) : (p.run ops).Charted := by
  induction ops generalizing p with
  | nil => exact h
  | cons op ops ih => exact ih (h.perform op)

end Probe

/-- **The maps of a program stay in order.**  Whatever has been done with a program, its marks are
ordered, do not overlap, and stay in the pending text.  This is so after any further piece of text,
which is what operations emit, and after the gaps since the beginning of an operation have been
anchored, for which halving finds the marks since then.  When the next revision is made, every
segment is added behind the last one, to its map and to the composition with the merged map.  The
maps of all revisions and the merged map have ordered segments that are not empty, do not overlap,
and stay in the committed text. -/
theorem program_maps_stay_in_order (markupFile typeLibrary : String) (ops : List Operation) :
    let p := (Probe.initial markupFile typeLibrary).run ops
    p.MarksOrdered ∧
    (∀ q, p.Writes q → q.MarksOrdered ∧
      bisect (·.start < p.pending.utf8ByteSize) q.marks.toArray =
        (q.marks.takeWhile (·.start < p.pending.utf8ByteSize)).length ∧
      ∀ sourceStart, (q.anchor p.pending.utf8ByteSize sourceStart).MarksOrdered) ∧
    (∀ op, op = .commit ∨ ∃ q, p.Writes q ∧ (p.perform op = q ∨
      ∃ sourceStart, p.perform op = q.anchor p.pending.utf8ByteSize sourceStart)) ∧
    p.nextMap? = some p.nextMap ∧
    p.nextMap.mergeWith? p.merged = some (p.nextMap.mergeWith p.merged) ∧
    p.nextMap.Bounded p.commit.1.text.utf8ByteSize ∧
    p.merged.Bounded p.text.utf8ByteSize ∧
    ∀ m ∈ p.chain.maps, m.Bounded p.text.utf8ByteSize := by
  intro p
  have h : p.Charted := (Probe.charted_initial markupFile typeLibrary).run ops
  obtain ⟨hnext, -⟩ := Probe.sends_nextMap h.tidy
  refine ⟨h.tidy.marksOrdered, ?_, p.writes_or_anchors, h.tidy.nextMap?_eq, ?_, hnext,
    h.merged, h.maps⟩
  · intro q hq
    have hordered := (hq.tidy h.tidy).marksOrdered
    exact ⟨hordered, hordered.bisect_eq _, fun sourceStart =>
      (hq.tidy_anchor h.tidy sourceStart).marksOrdered⟩
  · exact SourceMap.mergeWith?_eq hnext.wellFormed h.merged.wellFormed

/-- An empty copy, and behind it the evaluation of a binding whose expression is empty. -/
def emptyCopies : List Operation :=
  let handler : Ident := ⟨"text", ⟨⟨1, 4⟩, ⟨1, 8⟩, 4, 8⟩⟩
  let expression : ExpressionText := ⟨"", ⟨⟨1, 10⟩, ⟨1, 10⟩, 10, 10⟩⟩
  [.commit, .emitMapped "" ⟨⟨1, 2⟩, ⟨1, 2⟩, 2, 2⟩ none,
    .declare (.transformation ⟨0, handler, expression, none, 0, none, []⟩ 0 [])]

theorem program_maps_stay_in_order_emptyCopies :
    let p := (Probe.initial "view.html" "lib").run emptyCopies
    p.marks.map (fun k => (k.start, k.stop)) =
      [(0, 0), (0, 1), (144, 150), (150, 151), (152, 152), (152, 153)] ∧
    p.MarksOrdered ∧ (p.emit "\n").MarksOrdered ∧
    p.nextMap.mergeWith? p.merged = some (p.nextMap.mergeWith p.merged) ∧
    (p.nextMap.mergeWith p.merged).segments.toList.map (fun s => (s.start, s.stop)) =
      [(411, 412), (555, 561), (561, 562), (563, 564)] := by
  intro p
  obtain ⟨hmarks, hpieces, -, -, hmerged, -⟩ :=
    program_maps_stay_in_order "view.html" "lib" emptyCopies
  exact ⟨by decide +kernel, hmarks, (hpieces _ (Probe.Writes.refl.emit "\n")).1, hmerged,
    by decide +kernel⟩

end ViewLint
