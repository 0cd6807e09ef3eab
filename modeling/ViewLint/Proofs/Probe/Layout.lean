import ViewLint.Proofs.Probe.Evaluations

/-!
# The layout of an evaluation

The evaluation of a binding has two copies: the name of the handler with its quotes, and the
expression.  Three anchors stand in the gaps: where the evaluation begins, behind the first copy and
behind the second one.  So each byte of the evaluation has a known place: bytes of a copy come from
the bytes that were copied, the first byte of a gap is taken for a copy of the first byte of the
handler, and the other bytes of a gap come from somewhere near it.

## Main definitions

* `Layout`, `Binding.layout` — where the copies stand in the evaluation of a binding.
* `Layout.marks` — the marks of an evaluation.
* `Layout.trace` — where a byte of an evaluation comes from.

## Main results

* `Probe.marks_emitTransformation` — an evaluation has the marks of its layout.
* `Layout.lookup_marks` — what is found among them.
* `Probe.Kept.translate_evaluation` — the places of all offsets of an evaluation, whatever the
  program goes on with.
-/

namespace ViewLint

/-- Where the copies stand in the evaluation of a binding: that of the handler in a gap behind other
text, and behind another gap that of the expression. -/
structure Layout where
  literal : Nat
  literalStop : Nat
  expression : Nat
  expressionStop : Nat
  literal_pos : 0 < literal
  literal_le : literal ≤ literalStop
  literalStop_lt : literalStop < expression
  expression_le : expression ≤ expressionStop

/-- What stands before the name of the handler in the evaluation of a binding. -/
def evaluationOpening (b : Binding) (context : ContextId) (members : List String) : String :=
  "function " ++ transformationName b.id ++ "($context: typeof " ++ contextName context ++
    ") \x7b\n" ++
  ("const \x7b " ++ ", ".intercalate (members.filter isBindable) ++
    " \x7d = \x7b ...$context, ...$context.$data \x7d\n") ++
  "return getBindingContextFactory("

theorem size_evaluationHead (b : Binding) (context : ContextId) (members : List String) :
    (evaluationHead b context members).utf8ByteSize =
      (evaluationOpening b context members).utf8ByteSize +
        (Text.quote b.handler.value).utf8ByteSize + 2 := by
  have hhead : evaluationHead b context members =
      evaluationOpening b context members ++ Text.quote b.handler.value ++ ")(" := rfl
  rw [hhead, String.utf8ByteSize_append, String.utf8ByteSize_append]
  rfl

/-- The layout of the evaluation of a binding.  A copy ends when either text does. -/
def Binding.layout (b : Binding) (context : ContextId) (members : List String) : Layout where
  literal := (evaluationOpening b context members).utf8ByteSize
  literalStop := (evaluationOpening b context members).utf8ByteSize +
    min (Text.quote b.handler.value).utf8ByteSize (b.handler.location.size + 2)
  expression := (evaluationHead b context members).utf8ByteSize
  expressionStop := (evaluationHead b context members).utf8ByteSize +
    min b.expression.text.utf8ByteSize b.expression.location.size
  literal_pos := by
    have hpos : 0 < "return getBindingContextFactory(".utf8ByteSize := by decide
    rw [evaluationOpening, String.utf8ByteSize_append]
    omega
  literal_le := Nat.le_add_right _ _
  literalStop_lt := by
    rw [size_evaluationHead]
    omega
  expression_le := Nat.le_add_right _ _

namespace Layout

variable (l : Layout) (b : Binding)

/-- The marks of an evaluation that begins at some offset: the two copies, and anchors to the
handler in the gaps. -/
def marks (start : Nat) : List Mark :=
  let handler := b.handler.location.start
  [⟨start, start + 1, handler, none⟩,
    ⟨start + l.literal, start + l.literalStop, handler - 1, none⟩,
    ⟨start + l.literalStop, start + l.literalStop + 1, handler, none⟩,
    ⟨start + l.expression, start + l.expressionStop, b.expression.location.start, none⟩,
    ⟨start + l.expressionStop, start + l.expressionStop + 1, handler, none⟩]

/-- The offset of the markup that a byte of an evaluation comes from, and whether it is exact. -/
def trace (i : Nat) : Nat × Bool :=
  let handler := b.handler.location.start
  if l.literal ≤ i ∧ i < l.literalStop then (handler - 1 + (i - l.literal), true)
  else if l.expression ≤ i ∧ i < l.expressionStop then
    (b.expression.location.start + (i - l.expression), true)
  else (handler, decide (i = 0 ∨ i = l.literalStop ∨ i = l.expressionStop))

/-- Anchors fill the gaps between the two copies. -/
theorem anchored_eq_marks {start stop : Nat} (hstop : start + l.expressionStop < stop) :
    Probe.anchored b.handler.location.start stop start
      [⟨start + l.literal, start + l.literalStop, b.handler.location.start - 1, none⟩,
        ⟨start + l.expression, start + l.expressionStop, b.expression.location.start, none⟩] =
      l.marks b start := by
  have hliteral := l.literal_pos
  have hle := l.literal_le
  have hlt := l.literalStop_lt
  have hexpression := l.expression_le
  have hfirst : start < start + l.literal := by omega
  have hcopy : max start (start + l.literalStop) = start + l.literalStop := by omega
  have hsecond : start + l.literalStop < start + l.expression := by omega
  have hcopy' : max (start + l.literalStop) (start + l.expressionStop) =
      start + l.expressionStop := by omega
  simp only [Probe.anchored, hfirst, hcopy, hsecond, hcopy', hstop, if_true, marks]

end Layout

/-- The last mark that is not empty and begins at or before an offset is looked up. -/
theorem lastBefore_markStretches (o size : Nat) (file : String) (marks : List Mark) :
    lastBefore o (markStretches size file marks) =
      (marks.reverse.find? fun k => decide (k.start < k.stop) && decide (size + k.start ≤ o)).map
        (Mark.stretch size file) := by
  rw [lastBefore, markStretches, ← List.filter_reverse, ← List.map_reverse, List.find?_filter,
    List.find?_map]
  congr 2
  funext k
  simp [Mark.stretch, Stretch.solid]

section

variable {size start i first last : Nat} {file : String}

/-- A byte of a copy comes from the byte that was copied. -/
theorem place_copy (hfirst : first ≤ i) (hlast : i < last) (source : Nat) :
    Stretch.place [file] (size + (start + i))
        (Mark.stretch size file ⟨start + first, start + last, source, none⟩) =
      ⟨0, source + (i - first), true⟩ := by
  have hlt : size + (start + i) < size + (start + last) := by omega
  have hdistance : size + (start + i) - (size + (start + first)) = i - first := by omega
  simp only [Stretch.place, Mark.stretch, if_pos hlt, hdistance, List.idxOf_cons_self]

/-- What stands behind an anchor comes from where the anchor does. -/
theorem place_anchor (hfirst : first ≤ i) (source : Nat) :
    Stretch.place [file] (size + (start + i))
        (Mark.stretch size file ⟨start + first, start + first + 1, source, none⟩) =
      ⟨0, source, decide (i = first)⟩ := by
  by_cases heq : i = first
  · rw [heq, Nat.add_assoc start first 1, place_copy (Nat.le_refl first) (Nat.lt_succ_self first),
      Nat.sub_self, Nat.add_zero, decide_eq_true rfl]
  · have hge : ¬size + (start + i) < size + (start + first + 1) := by omega
    simp only [Stretch.place, Mark.stretch, if_neg hge, List.idxOf_cons_self, heq, decide_false]

namespace Layout

variable (l : Layout) (b : Binding)

/-- Outside of the copies only the byte at an anchor is exact. -/
theorem trace_of_gap (a : Nat) (hliteral : ¬(l.literal ≤ i ∧ i < l.literalStop))
    (hexpression : ¬(l.expression ≤ i ∧ i < l.expressionStop))
    (ha : i = 0 ∨ i = l.literalStop ∨ i = l.expressionStop ↔ i = a) :
    l.trace b i = (b.handler.location.start, decide (i = a)) := by
  rw [trace, if_neg hliteral, if_neg hexpression]
  exact congrArg (Prod.mk _) (decide_eq_decide.mpr ha)

/-- What is found among the marks of an evaluation. -/
theorem lookup_marks (size start i : Nat) (file : String) :
    (lastBefore (size + (start + i)) (markStretches size file (l.marks b start))).map
        (Stretch.place [file] (size + (start + i))) =
      some ⟨0, (l.trace b i).1, (l.trace b i).2⟩ := by
  have hliteral := l.literal_pos
  have hle := l.literal_le
  have hlt := l.literalStop_lt
  have hexpression := l.expression_le
  rw [lastBefore_markStretches, marks]
  simp only [List.reverse_cons, List.reverse_nil, List.nil_append, List.cons_append,
    List.find?_cons, Nat.add_le_add_iff_left, Nat.add_lt_add_iff_left, Nat.lt_add_one, decide_true,
    Bool.true_and]
  -- from the last mark to the first one
  by_cases htail : l.expressionStop ≤ i
  · rw [l.trace_of_gap b l.expressionStop (by omega) (by omega) (by omega), decide_eq_true htail]
    exact congrArg some (place_anchor htail _)
  rw [decide_eq_false htail]
  by_cases hcopy : l.expression ≤ i
  · have hsolid : l.expression < l.expressionStop := by omega
    rw [decide_eq_true hsolid, decide_eq_true hcopy, trace, if_neg (by omega),
      if_pos ⟨hcopy, Nat.lt_of_not_le htail⟩]
    exact congrArg some (place_copy hcopy (Nat.lt_of_not_le htail) _)
  rw [decide_eq_false hcopy, Bool.and_false]
  by_cases hbetween : l.literalStop ≤ i
  · rw [l.trace_of_gap b l.literalStop (by omega) (by omega) (by omega), decide_eq_true hbetween]
    exact congrArg some (place_anchor hbetween _)
  rw [decide_eq_false hbetween]
  by_cases hname : l.literal ≤ i
  · have hsolid : l.literal < l.literalStop := by omega
    rw [decide_eq_true hsolid, decide_eq_true hname, trace,
      if_pos ⟨hname, Nat.lt_of_not_le hbetween⟩]
    exact congrArg some (place_copy hname (Nat.lt_of_not_le hbetween) _)
  · rw [l.trace_of_gap b 0 (by omega) (by omega) (by omega), decide_eq_false hname, Bool.and_false,
      decide_eq_true (Nat.le_add_right start i)]
    exact congrArg some (place_anchor (Nat.zero_le i) _)

end Layout

end

namespace Probe

variable {p p' : Probe} {b : Binding} {context : ContextId} {members : List String}

/-- A program with all that stands before the name of the handler in the evaluation of a binding. -/
def emitOpening (p : Probe) (b : Binding) (context : ContextId) (members : List String) : Probe :=
  ((p.emit ("function " ++ transformationName b.id ++ "($context: typeof " ++
    contextName context ++ ") \x7b\n")).emit
    ("const \x7b " ++ ", ".intercalate (members.filter isBindable) ++
      " \x7d = \x7b ...$context, ...$context.$data \x7d\n")).emit
    "return getBindingContextFactory("

theorem emits_emitOpening (p : Probe) (b : Binding) (context : ContextId) (members : List String) :
    Emits p (p.emitOpening b context members) (evaluationOpening b context members) :=
  ((emits_emit _ _).trans (emits_emit _ _)).trans (emits_emit _ _)

/-- The copies stand behind what has been emitted before them. -/
theorem marks_emitEvaluation (p : Probe) (b : Binding) (context : ContextId)
    (members : List String) :
    (p.emitEvaluation b context members).marks = p.marks ++
      [⟨p.pending.utf8ByteSize + (b.layout context members).literal,
        p.pending.utf8ByteSize + (b.layout context members).literalStop,
        b.handler.location.start - 1, none⟩,
      ⟨p.pending.utf8ByteSize + (b.layout context members).expression,
        p.pending.utf8ByteSize + (b.layout context members).expressionStop,
        b.expression.location.start, none⟩] := by
  have hopening : (p.emitOpening b context members).pending.utf8ByteSize =
      p.pending.utf8ByteSize + (evaluationOpening b context members).utf8ByteSize := by
    rw [(p.emits_emitOpening b context members).pending, String.utf8ByteSize_append]
  have hhead : (p.emitHead b context members).pending.utf8ByteSize =
      p.pending.utf8ByteSize + (evaluationHead b context members).utf8ByteSize := by
    rw [(emits_emitHead b context members p).pending, String.utf8ByteSize_append]
  have hmarks : (p.emitEvaluation b context members).marks = p.marks ++
      [⟨(p.emitOpening b context members).pending.utf8ByteSize,
        (p.emitOpening b context members).pending.utf8ByteSize +
          min (Text.quote b.handler.value).utf8ByteSize (b.handler.location.size + 2),
        b.handler.location.start - 1, none⟩,
      ⟨(p.emitHead b context members).pending.utf8ByteSize,
        (p.emitHead b context members).pending.utf8ByteSize +
          min b.expression.text.utf8ByteSize b.expression.location.size,
        b.expression.location.start, none⟩] := List.append_assoc p.marks [_] [_]
  rw [hmarks, hopening, hhead, Nat.add_assoc, Nat.add_assoc]
  rfl

/-- An evaluation has the marks of its layout. -/
theorem marks_emitTransformation (hp : p.Tidy) (b : Binding) (context : ContextId)
    (members : List String) :
    (p.emitTransformation b context members).marks =
      p.marks ++ (b.layout context members).marks b p.pending.utf8ByteSize := by
  have hhead := emits_emitHead b context members p
  have hevaluation : Emits p (p.emitEvaluation b context members) _ :=
    ((hhead.trans (emits_emitAt _ _ _ _ _)).trans (emits_emit _ _)).trans (emits_emit _ _)
  obtain ⟨new, hnew, hrow⟩ := hevaluation.marks hp
  have hcopies := p.marks_emitEvaluation b context members
  rw [hnew, List.append_cancel_left_eq] at hcopies
  have hstop : p.pending.utf8ByteSize + (b.layout context members).expressionStop <
      (p.emitEvaluation b context members).pending.utf8ByteSize := by
    have hpositive : 0 < ", $context)\n\x7d\n".utf8ByteSize := by decide
    have hle : min b.expression.text.utf8ByteSize b.expression.location.size ≤
        b.expression.text.utf8ByteSize := Nat.min_le_left _ _
    rw [hevaluation.pending]
    simp only [String.utf8ByteSize_append, Binding.layout]
    omega
  rw [emitTransformation_eq, marks_anchor hnew hp hrow, hcopies, Layout.anchored_eq_marks _ _ hstop]

/-- The places of all offsets of an evaluation, whatever the program goes on with. -/
theorem Kept.translate_evaluation (hp : p.Kept) (hp' : p'.Kept)
    (hextends : (p.declare (.transformation b context members)).Extends p') {i : Nat}
    (hi : i < (Declaration.transformation b context members).text.utf8ByteSize)
    (hcommitted : p.size + i < p'.text.utf8ByteSize) :
    p'.translate (p.size + i) =
      some ⟨0, ((b.layout context members).trace b i).1,
        ((b.layout context members).trace b i).2⟩ := by
  have hmarks : (p.declare (.transformation b context members)).marks = p.marks ++
      (b.layout context members).marks b p.pending.utf8ByteSize :=
    marks_emitTransformation (p := { p with declarations := p.declarations ++
      [.transformation b context members] }) hp.tidy b context members
  have hlast : p.size + i < (p.declare (.transformation b context members)).size := by
    unfold size
    rw [text_declare, pending_declare, String.utf8ByteSize_append]
    omega
  have hoffset : p.size + i = p.text.utf8ByteSize + (p.pending.utf8ByteSize + i) := Nat.add_assoc ..
  have hlookup := (b.layout context members).lookup_marks b p.text.utf8ByteSize
    p.pending.utf8ByteSize i p.markupFile
  rw [← hoffset] at hlookup
  obtain ⟨x, hx, hplace⟩ := Option.map_eq_some_iff.mp hlookup
  rw [hp'.translate_declared hextends hmarks hlast hcommitted hx, hplace]

end Probe

end ViewLint
