import ViewLint.Proofs.Document.Names
import ViewLint.Proofs.Probe.Layout

/-!
# Copies that end between characters

A copy from the markup ends when either text does: the emitted one, or the one at the place that it
comes from.  The two are of the same length for names, types and expressions.  The literal of a text
between quotes may be longer, because of what is escaped in it, and is then cut at a byte that may
be inside a character.  An anchor has one byte, whatever character stands there.  So whether all
copies of a program end between characters is decided by the literals alone, one emission after the
other.

## Main definitions

* `Text.Boundary` — a byte of a text between two characters, or at one of its ends.
* `Probe.Aligned` — all copies of a program begin and end between characters.
* `Probe.Aligns` — what has been emitted keeps a program aligned exactly if some condition holds.
* `Ident.LiteralFits`, `Binding.LiteralFits` — the condition for a text between quotes.

## Main results

* `Probe.aligns_emitAt` — one copy.
* `Probe.aligns_emitImports` — all imports.
* `Probe.aligns_emitTransformation`, `Probe.aligns_declare` — an evaluation, and any declaration.
* `Probe.aligns_commit` — a revision.
-/

namespace ViewLint

open Text

/-! ### Bytes between characters -/

/-- A byte of a text that stands between two characters, or at one of its ends. -/
def Text.Boundary (t : String) (n : Nat) : Prop := bytes (upTo n t.toList) = n

instance (t : String) (n : Nat) : Decidable (Boundary t n) := inferInstanceAs (Decidable (_ = _))

section

variable {s t : String} {n a b : Nat}

theorem bytes_toList (t : String) : bytes t.toList = t.utf8ByteSize := by
  rw [← utf8ByteSize_ofList, String.ofList_toList]

theorem boundary_iff : Boundary t n ↔ ∃ u, u <+: t.toList ∧ bytes u = n := by
  constructor
  · exact fun h => ⟨_, prefix_upTo n t.toList, h⟩
  · rintro ⟨u, hu, rfl⟩
    rw [Boundary, upTo_bytes_eq hu]

@[simp] theorem boundary_zero (t : String) : Boundary t 0 :=
  boundary_iff.mpr ⟨[], List.nil_prefix, rfl⟩

@[simp] theorem boundary_size (t : String) : Boundary t t.utf8ByteSize :=
  boundary_iff.mpr ⟨_, List.prefix_rfl, bytes_toList t⟩

/-- What follows a text changes nothing in it. -/
theorem boundary_append_left (h : n ≤ s.utf8ByteSize) : Boundary (s ++ t) n ↔ Boundary s n := by
  rw [boundary_iff, boundary_iff, String.toList_append]
  constructor
  · rintro ⟨u, hu, rfl⟩
    rw [← bytes_toList] at h
    exact ⟨u, prefix_of_bytes_le hu (List.prefix_append _ _) h, rfl⟩
  · rintro ⟨u, hu, rfl⟩
    exact ⟨u, hu.trans (List.prefix_append _ _), rfl⟩

/-- What stands before a text only shifts its bytes. -/
theorem boundary_append_right : Boundary (s ++ t) (s.utf8ByteSize + n) ↔ Boundary t n := by
  rw [boundary_iff, boundary_iff, String.toList_append, ← bytes_toList]
  constructor
  · rintro ⟨u, hu, hbytes⟩
    have hle : bytes s.toList ≤ bytes u := hbytes ▸ Nat.le_add_right _ _
    obtain ⟨v, rfl⟩ := prefix_of_bytes_le (List.prefix_append _ _) hu hle
    rw [bytes_append, Nat.add_left_cancel_iff] at hbytes
    exact ⟨v, (List.prefix_append_right_inj _).mp hu, hbytes⟩
  · rintro ⟨v, hv, rfl⟩
    exact ⟨s.toList ++ v, (List.prefix_append_right_inj _).mpr hv, bytes_append _ _⟩

theorem boundary_append_size (s t : String) : Boundary (s ++ t) s.utf8ByteSize :=
  boundary_append_right.mpr (boundary_zero t)

/-- A text that begins with a character of one byte. -/
theorem boundary_one {c : Char} (h : t.toList.head? = some c) (hc : c.utf8Size = 1) :
    Boundary t 1 := by
  obtain ⟨u, hu⟩ := List.head?_eq_some_iff.mp h
  refine boundary_iff.mpr ⟨[c], ?_, by rw [bytes_cons, hc, bytes_nil]⟩
  rw [hu]
  exact (List.prefix_cons_inj c).mpr List.nil_prefix

/-- There is a text between two bytes if both stand between characters. -/
theorem isSome_between? :
    (between? t.toList a b).isSome ↔ Boundary t a ∧ Boundary t b ∧ a ≤ b := by
  unfold between? Boundary
  dsimp only
  split
  · next h => simp only [Option.isSome_some, h, and_self]
  · next h => simp only [Option.isSome_none, Bool.false_eq_true, h]

end

/-! ### Aligned programs -/

/-- A stretch begins and ends between characters of a text. -/
def Stretch.Parted (t : String) (x : Stretch) : Prop := Boundary t x.start ∧ Boundary t x.stop

namespace Probe

variable {p p' p'' : Probe} {t : String} {P Q : Prop}

/-- All copies of a program begin and end between characters. -/
def Aligned (p : Probe) : Prop := ∀ x ∈ p.trail, x.Parted (p.text ++ p.pending)

theorem Kept.trail_le_size (h : p.Kept) {x : Stretch} (hx : x ∈ p.trail) :
    x.start ≤ p.size ∧ x.stop ≤ p.size := by
  unfold size
  rcases List.mem_append.mp hx with hx | hx
  · have := h.merged.stretch_bounds hx
    omega
  · have := InRow.stretch_bounds h.tidy hx
    omega

/-- Emitted text leaves the copies before it as they are. -/
theorem Emits.aligned_iff (h : Emits p p' t) (hp : p.Kept) {new : List Mark}
    (hnew : p'.marks = p.marks ++ new) :
    p'.Aligned ↔ p.Aligned ∧ ∀ k ∈ new, k.start < k.stop →
      Boundary p'.pending k.start ∧ Boundary p'.pending k.stop := by
  have htrail : p'.trail = p.trail ++ markStretches p.text.utf8ByteSize p.markupFile new := by
    rw [trail, h.merged, h.text, h.markupFile, hnew, markStretches_append, ← List.append_assoc,
      trail]
  have hwhole : p'.text ++ p'.pending = p.text ++ p.pending ++ t := by
    rw [h.text, h.pending, String.append_assoc]
  have hold : ∀ x ∈ p.trail,
      x.Parted (p'.text ++ p'.pending) ↔ x.Parted (p.text ++ p.pending) := by
    intro x hx
    obtain ⟨hstart, hstop⟩ := hp.trail_le_size hx
    rw [size, ← String.utf8ByteSize_append] at hstart hstop
    rw [hwhole, Stretch.Parted, Stretch.Parted, boundary_append_left hstart,
      boundary_append_left hstop]
  unfold Aligned
  rw [htrail, List.forall_mem_append]
  refine and_congr (forall₂_congr hold) ?_
  constructor
  · intro hall k hk hlt
    have hparted := hall _ (mem_markStretches.mpr ⟨k, hk, hlt, rfl⟩)
    rw [h.text] at hparted
    exact hparted.imp boundary_append_right.mp boundary_append_right.mp
  · intro hall x hx
    obtain ⟨k, hk, hlt, rfl⟩ := mem_markStretches.mp hx
    rw [h.text]
    exact (hall k hk hlt).imp boundary_append_right.mpr boundary_append_right.mpr

/-- A program goes on, and what is new in it is aligned exactly if a condition holds. -/
structure Aligns (p p' : Probe) (P : Prop) : Prop where
  kept : p.Kept → p'.Kept
  aligned : p.Kept → (p'.Aligned ↔ p.Aligned ∧ P)

theorem Aligns.trans (h : Aligns p p' P) (h' : Aligns p' p'' Q) : Aligns p p'' (P ∧ Q) := by
  refine ⟨fun hp => h'.kept (h.kept hp), ?_⟩
  intro hp
  rw [h'.aligned (h.kept hp), h.aligned hp, and_assoc]

theorem Aligns.of_iff (h : Aligns p p' P) (hPQ : P ↔ Q) : Aligns p p' Q := by
  rw [propext hPQ] at h
  exact h

/-- A first step without a condition. -/
theorem Aligns.behind (h : Aligns p p' True) (h' : Aligns p' p'' P) : Aligns p p'' P :=
  (h.trans h').of_iff (and_iff_right trivial)

/-- A further step without a condition. -/
theorem Aligns.before (h : Aligns p p' P) (h' : Aligns p' p'' True) : Aligns p p'' P :=
  (h.trans h').of_iff (and_iff_left trivial)

theorem Emits.aligns (h : Emits p p' t)
    (hnew : p.Kept → ∃ new, p'.marks = p.marks ++ new ∧
      ((∀ k ∈ new, k.start < k.stop →
        Boundary p'.pending k.start ∧ Boundary p'.pending k.stop) ↔ P)) :
    Aligns p p' P := by
  refine ⟨h.kept, ?_⟩
  intro hp
  obtain ⟨new, hmarks, hiff⟩ := hnew hp
  rw [h.aligned_iff hp hmarks, hiff]

/-! ### Emission -/

theorem aligns_refl (p : Probe) : Aligns p p True := ⟨id, fun _ => (and_iff_left trivial).symm⟩

theorem aligns_emit (p : Probe) (t : String) : Aligns p (p.emit t) True := by
  refine (emits_emit p t).aligns fun _ => ⟨[], (List.append_nil _).symm, ?_⟩
  simp

/-- A copy is aligned if it ends between characters of the emitted text. -/
theorem aligns_emitAt (p : Probe) (t : String) (start size : Nat) (name : Option String) :
    Aligns p (p.emitAt t start size name) (Boundary t (min t.utf8ByteSize size)) := by
  refine (emits_emitAt p t start size name).aligns fun _ => ⟨_, rfl, ?_⟩
  rw [List.forall_mem_singleton]
  change (_ < _ → Boundary (p.pending ++ t) p.pending.utf8ByteSize ∧
    Boundary (p.pending ++ t) (p.pending.utf8ByteSize + min t.utf8ByteSize size)) ↔ _
  rw [boundary_append_right, and_iff_right (boundary_append_size _ _)]
  constructor
  · intro h
    rcases Nat.eq_zero_or_pos (min t.utf8ByteSize size) with hzero | hpos
    · rw [hzero]
      exact boundary_zero t
    · exact h (Nat.lt_add_of_pos_right hpos)
  · exact fun h _ => h

end Probe

/-- The number of bytes that a literal has in common with the text between quotes that it stands
for. -/
def Ident.literalCut (i : Ident) : Nat := min (quote i.value).utf8ByteSize (i.location.size + 2)

/-- The literal of a text between quotes is cut between characters. -/
def Ident.LiteralFits (i : Ident) : Prop := Boundary (quote i.value) i.literalCut

/-- The literal of a handler is cut between characters, with a character of one byte behind the cut,
for the anchor.  If nothing is cut off, a bracket stands there. -/
def Binding.LiteralFits (b : Binding) : Prop :=
  b.handler.LiteralFits ∧ Boundary (quote b.handler.value ++ ")") (b.handler.literalCut + 1)

instance (i : Ident) : Decidable i.LiteralFits := inferInstanceAs (Decidable (Boundary _ _))

instance (b : Binding) : Decidable b.LiteralFits := inferInstanceAs (Decidable (_ ∧ _))

namespace Probe

variable {p : Probe}

/-- A name is copied as a whole. -/
theorem aligns_emitMapped {i : Ident} (hi : i.Exact) (p : Probe) (name : Option String) :
    Aligns p (p.emitMapped i.value i.location name) True := by
  refine (aligns_emitAt p i.value i.location.start i.location.size name).of_iff (iff_true_intro ?_)
  rw [← hi, Nat.min_self]
  exact boundary_size _

theorem aligns_emitIdent {i : Ident} (hi : i.Exact) (p : Probe) : Aligns p (p.emitIdent i) True :=
  aligns_emitMapped hi p _

theorem aligns_emitQuoted (p : Probe) (i : Ident) :
    Aligns p (p.emitQuoted i.value i.location) i.LiteralFits :=
  aligns_emitAt p (quote i.value) (i.location.start - 1) (i.location.size + 2) none

/-! ### Imports -/

/-- A name that has the place of the one that is given is no copy, unless it is that name. -/
theorem aligns_emitSymbol {s : ImportSymbol} (hs : ∀ i ∈ s.names, i.Exact) (p : Probe) :
    Aligns p (p.emitSymbol s) True := by
  have hgiven : s.given.Exact := by
    apply hs
    unfold ImportSymbol.names
    split <;> simp
  have hname :
      s.name.value = s.given.value ∨ s.name.location ≠ s.given.location → s.name.Exact := by
    intro hcopied
    by_cases hdefault : s.name = ⟨"default", s.given.location⟩
    · rcases hcopied with hvalue | hlocation
      · have hsame : s.name.location = s.given.location := by rw [hdefault]
        rw [Ident.Exact, hvalue, hsame]
        exact hgiven
      · exact absurd (by rw [hdefault]) hlocation
    · apply hs
      rw [ImportSymbol.names, if_neg hdefault]
      exact List.mem_cons_self ..
  unfold emitSymbol
  split
  · next hvalue => exact aligns_emitIdent (hname (.inl hvalue)) p
  · dsimp only
    split
    · exact ((aligns_emit _ _).behind (aligns_emit _ _)).behind (aligns_emitIdent hgiven _)
    · next hlocation =>
      exact ((aligns_emitIdent (hname (.inr hlocation)) p).behind (aligns_emit _ _)).behind
        (aligns_emitIdent hgiven _)

theorem aligns_emitSymbols {ss : List ImportSymbol} (hss : ∀ s ∈ ss, ∀ i ∈ s.names, i.Exact)
    (p : Probe) : Aligns p (p.emitSymbols ss) True := by
  induction ss generalizing p with
  | nil => exact aligns_refl p
  | cons s ss ih =>
    rw [List.forall_mem_cons] at hss
    have hfirst := aligns_emitSymbol hss.1 p
    cases ss with
    | nil => exact hfirst
    | cons s' ss => exact (hfirst.behind (aligns_emit _ _)).behind (ih hss.2 _)

/-- The path of an import is the only literal in it. -/
theorem aligns_emitImport {i : Import} (hi : ∀ s ∈ i.symbols, ∀ n ∈ s.names, n.Exact) (p : Probe) :
    Aligns p (p.emitImport i) i.path.LiteralFits := by
  have hpath : ∀ q : Probe, Aligns q
      (((q.emit " from ").emitQuoted i.path.value i.path.location).emit "\n") i.path.LiteralFits :=
    fun q => ((aligns_emit q _).behind (aligns_emitQuoted _ i.path)).before (aligns_emit _ _)
  unfold emitImport
  dsimp only
  split
  · next s _ _ hsymbols =>
    have hgiven : s.given.Exact := by
      apply hi s (by rw [hsymbols]; exact List.mem_cons_self ..)
      unfold ImportSymbol.names
      split <;> simp
    exact ((aligns_emit p _).behind (aligns_emitIdent hgiven _)).behind (hpath _)
  · exact (((aligns_emit p _).behind (aligns_emitSymbols hi _)).behind (aligns_emit _ _)).behind
      (hpath _)

theorem aligns_emitImports {is : List Import}
    (his : ∀ i ∈ is, ∀ s ∈ i.symbols, ∀ n ∈ s.names, n.Exact) (p : Probe) :
    Aligns p (p.emitImports is) (∀ i ∈ is, i.path.LiteralFits) := by
  induction is generalizing p with
  | nil => exact (aligns_refl p).of_iff (by simp)
  | cons i is ih =>
    rw [List.forall_mem_cons] at his
    refine ((aligns_emitImport his.1 p).trans (ih his.2 _)).of_iff ?_
    rw [List.forall_mem_cons]

theorem aligns_emitHandlers (p : Probe) (names : List String) :
    Aligns p (p.emitHandlers names) True := by
  have hfold : ∀ (names : List String) (q : Probe), Aligns q (names.foldl
      (fun p name => p.emit (quote name ++ ": BindingContextTransform<" ++ name ++ ">\n")) q)
        True := by
    intro names
    induction names with
    | nil => exact aligns_refl
    | cons name names ih => exact fun q => (aligns_emit q _).behind (ih _)
  exact ((aligns_emit p _).behind (hfold names _)).behind (aligns_emit _ _)

/-! ### Types -/

theorem aligns_emitType {type : TypeReference} (h : type.name.Exact) (p : Probe) :
    Aligns p (p.emitType type) True := by
  unfold emitType
  split
  · exact aligns_emitMapped h p none
  · exact (aligns_emit p _).behind (aligns_emitMapped h _ none)

end Probe

/-! ### Evaluations -/

section

variable (b : Binding) (context : ContextId) (members : List String)

/-- The literal of the handler in the evaluation of a binding, with the bracket behind it. -/
theorem text_transformation_literal :
    (Declaration.transformation b context members).text =
      evaluationOpening b context members ++
        ((quote b.handler.value ++ ")") ++
          ("(" ++ (b.expression.text ++ evaluationTail b context))) := by
  have hhead : evaluationHead b context members =
      evaluationOpening b context members ++ quote b.handler.value ++ (")" ++ "(") := rfl
  rw [text_transformation, hhead]
  simp only [String.append_assoc]

theorem literalStop_layout : (b.layout context members).literalStop =
    (evaluationOpening b context members).utf8ByteSize + b.handler.literalCut := rfl

/-- The first anchor of an evaluation. -/
theorem boundary_transformation_one :
    Boundary (Declaration.transformation b context members).text 1 := by
  have hhead : (Declaration.transformation b context members).text.toList.head? = some 'f' := by
    rw [text_transformation]
    unfold evaluationHead
    simp [String.append_assoc]
  exact boundary_one hhead (by decide)

/-- The copy of the literal, and the anchor behind it. -/
theorem boundary_literal_iff :
    Boundary (Declaration.transformation b context members).text
      (b.layout context members).literal ∧
    (Boundary (Declaration.transformation b context members).text
        (b.layout context members).literalStop ∧
      Boundary (Declaration.transformation b context members).text
        ((b.layout context members).literalStop + 1) ↔ b.LiteralFits) := by
  have hcut : b.handler.literalCut ≤ (quote b.handler.value).utf8ByteSize := Nat.min_le_left _ _
  have hbracket : b.handler.literalCut + 1 ≤ (quote b.handler.value ++ ")").utf8ByteSize := by
    rw [String.utf8ByteSize_append]
    exact Nat.add_le_add_right hcut 1
  rw [text_transformation_literal, literalStop_layout]
  refine ⟨boundary_append_size _ _, ?_⟩
  rw [Nat.add_assoc, boundary_append_right, boundary_append_right, boundary_append_left hbracket,
    boundary_append_left (Nat.le_of_succ_le hbracket), boundary_append_left hcut]
  rfl

/-- The copy of the expression, and the anchor behind it. -/
theorem boundary_expression
    (hb : b.expression.location.size = b.expression.text.utf8ByteSize) :
    Boundary (Declaration.transformation b context members).text
      (b.layout context members).expression ∧
    Boundary (Declaration.transformation b context members).text
      (b.layout context members).expressionStop ∧
    Boundary (Declaration.transformation b context members).text
      ((b.layout context members).expressionStop + 1) := by
  have hstop : (b.layout context members).expressionStop =
      (evaluationHead b context members).utf8ByteSize + b.expression.text.utf8ByteSize := by
    change _ + min _ _ = _
    rw [hb, Nat.min_self]
  have htail : Boundary (evaluationTail b context) 1 := by
    have hhead : (evaluationTail b context).toList.head? = some ',' := by
      unfold evaluationTail
      simp [String.append_assoc]
    exact boundary_one hhead (by decide)
  rw [text_transformation, hstop, Nat.add_assoc, boundary_append_right, boundary_append_right,
    boundary_append_right]
  exact ⟨boundary_append_size _ _, boundary_append_size _ _, htail⟩

end

namespace Probe

/-- An evaluation is aligned if its literal is: what stands before the literal and behind the
expression begins with a character of one byte. -/
theorem aligns_emitTransformation {b : Binding}
    (hb : b.expression.location.size = b.expression.text.utf8ByteSize) (p : Probe)
    (context : ContextId) (members : List String) :
    Aligns p (p.emitTransformation b context members) b.LiteralFits := by
  have hemits := emits_emitTransformation p b context members
  refine hemits.aligns fun hp => ⟨_, marks_emitTransformation hp.tidy b context members, ?_⟩
  obtain ⟨hstart, hliteral⟩ := boundary_literal_iff b context members
  obtain ⟨hcopy, hcopied, hlast⟩ := boundary_expression b context members hb
  rw [hemits.pending, ← hliteral]
  unfold Layout.marks
  simp only [List.forall_mem_cons, Nat.add_assoc, boundary_append_right, boundary_append_size,
    boundary_transformation_one, hstart, hcopy, hcopied, hlast]
  constructor
  · -- the anchor behind the literal is never empty
    rintro ⟨-, -, hanchor, -⟩
    exact hanchor (Nat.add_lt_add_left (Nat.lt_succ_self _) _)
  · rintro ⟨hstop, hanchor⟩
    simp [hstop, hanchor]

end Probe

/-! ### Declarations and revisions -/

/-- The names and the expression that a declaration copies have as many bytes as their places. -/
def Declaration.Exact : Declaration → Prop
  | .root _ type => type.name.Exact
  | .directive _ type _ => type.name.Exact
  | .bindingContext _ _ => True
  | .scope _ => True
  | .transformation b _ _ => b.expression.location.size = b.expression.text.utf8ByteSize

/-- The literal of a declaration, if it has one, is cut between characters. -/
def Declaration.LiteralFits : Declaration → Prop
  | .transformation b _ _ => b.LiteralFits
  | _ => True

namespace Probe

variable {p : Probe}

theorem aligns_declare {x : Declaration} (hx : x.Exact) (p : Probe) :
    Aligns p (p.declare x) x.LiteralFits := by
  -- the list of declarations is no part of what is kept or aligned
  have hlisted : Aligns p { p with declarations := p.declarations ++ [x] } True :=
    ⟨fun h => ⟨⟨h.tidy, h.merged, h.file, h.fresh⟩, h.source⟩, fun _ => (and_iff_left trivial).symm⟩
  refine hlisted.behind ?_
  unfold declare
  cases x with
  | root context type =>
    exact ((aligns_emit _ _).behind (aligns_emitType hx _)).behind (aligns_emit _ _)
  | directive context type parent =>
    exact ((aligns_emit _ _).behind (aligns_emitType hx _)).behind (aligns_emit _ _)
  | bindingContext context binding => exact aligns_emit _ _
  | scope context => exact aligns_emit _ _
  | transformation b context members => exact aligns_emitTransformation hx _ context members

/-- A revision changes neither the text nor where it comes from. -/
theorem aligns_commit (p : Probe) : Aligns p p.commit.2 True := by
  refine ⟨Kept.commit, ?_⟩
  intro hp
  have hwhole : p.commit.2.text ++ p.commit.2.pending = p.text ++ p.pending := String.append_empty
  rw [Aligned, hp.trail_commit, hwhole, and_iff_left trivial]
  rfl

end Probe

end ViewLint
