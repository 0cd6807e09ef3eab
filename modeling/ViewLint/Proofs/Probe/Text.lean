import Mathlib
import ViewLint.Proofs.Probe.Marks

/-!
# The text of a probe program

A program is an opening followed by its declarations, in the order in which they have been
made.  Emitting text never touches what is committed, puts its marks behind those that are there,
and committing never changes the text as a whole.

## Main definitions

* `Declaration.text` — the text of a declaration.
* `Declaration.Gives` — a declaration gives a value a name.
* `Probe.Emits` — one program is another one with more text emitted.

## Main results

* `Probe.pending_declare` — a declaration emits its text.
* `contextName_injective`, `scopeName_injective`, `bindingName_injective` — names tell what they
  name apart.
* `Probe.exists_emits_emitImports`, `Probe.exists_emits_emitHandlers` — what comes before the
  declarations is emitted text as well.
-/

namespace ViewLint

open Text

/-! ### Texts of declarations -/

/-- The text that declares a constant. -/
def constantText (name rest : String) : String := "const " ++ (name ++ rest)

/-- The text of the function that evaluates a binding. -/
def transformationText (b : Binding) (context : ContextId) (members : List String) : String :=
  "function " ++ transformationName b.id ++ "($context: typeof " ++ contextName context ++
    ") \x7b\n" ++
  ("const \x7b " ++ ", ".intercalate (members.filter isBindable) ++
    " \x7d = \x7b ...$context, ...$context.$data \x7d\n") ++
  "return getBindingContextFactory(" ++ quote b.handler.value ++ ")(" ++ b.expression.text ++
    ", $context)\n\x7d\n"

/-- The text of a declaration. -/
def Declaration.text : Declaration → String
  | .root context type =>
    constantText (contextName context)
      (": RootBindingContext<" ++ type.text ++ "> = (undefined as any)\n")
  | .directive context type parent =>
    constantText (contextName context)
      (": ChildBindingContext<" ++ type.text ++
        (", typeof " ++ contextName parent ++ "> = (undefined as any)\n"))
  | .bindingContext context binding =>
    constantText (contextName context) (" = " ++ bindingName binding ++ "\n")
  | .scope context =>
    constantText (scopeName context)
      (" = \x7b ..." ++ contextName context ++ ", ..." ++ contextName context ++ ".$data \x7d\n")
  | .transformation binding context members =>
    transformationText binding context members ++
      constantText (bindingName binding.id)
        (" = " ++ transformationName binding.id ++ "(" ++ contextName context ++ ")\n")

/-- The text of declarations one after the other. -/
def textOf : List Declaration → String
  | [] => ""
  | c :: cs => c.text ++ textOf cs

@[simp] theorem textOf_append (cs ds : List Declaration) :
    textOf (cs ++ ds) = textOf cs ++ textOf ds := by
  induction cs with
  | nil => simp [textOf]
  | cons c cs ih => simp only [List.cons_append, textOf, ih, String.append_assoc]

@[simp] theorem textOf_singleton (c : Declaration) : textOf [c] = c.text := by
  simp [textOf]

/-- A declaration gives a value a name: one of its lines declares it as a constant, with its
type or its value behind the name. -/
def Declaration.Gives (c : Declaration) (name : String) : Prop :=
  ∃ lines rest, c.text = lines ++ constantText name rest ∧
    (lines = "" ∨ lines.toList.getLast? = some '\n') ∧
    (rest.toList.head? = some ':' ∨ rest.toList.head? = some ' ')

theorem Declaration.gives_of_text {c : Declaration} {name rest : String}
    (h : c.text = constantText name rest)
    (hrest : rest.toList.head? = some ':' ∨ rest.toList.head? = some ' ') : c.Gives name :=
  ⟨"", rest, by rw [h, String.empty_append], .inl rfl, hrest⟩

theorem Declaration.gives_root (context : ContextId) (type : TypeReference) :
    (Declaration.root context type).Gives (contextName context) := by
  refine gives_of_text (by rw [text]) (.inl ?_)
  simp [String.append_assoc]

theorem Declaration.gives_directive (context : ContextId) (type : TypeReference)
    (parent : ContextId) :
    (Declaration.directive context type parent).Gives (contextName context) := by
  refine gives_of_text (by rw [text]) (.inl ?_)
  simp [String.append_assoc]

theorem Declaration.gives_bindingContext (context : ContextId) (binding : BindingId) :
    (Declaration.bindingContext context binding).Gives (contextName context) := by
  refine gives_of_text (by rw [text]) (.inr ?_)
  simp [String.append_assoc]

theorem Declaration.gives_scope (context : ContextId) :
    (Declaration.scope context).Gives (scopeName context) := by
  refine gives_of_text (by rw [text]) (.inr ?_)
  simp [String.append_assoc]

theorem getLast?_append_of_getLast? {s t : String} {c : Char} (h : t.toList.getLast? = some c) :
    (s ++ t).toList.getLast? = some c := by
  rw [String.toList_append, List.getLast?_append, h, Option.some_or]

/-- The function that evaluates a binding ends with its line. -/
theorem getLast?_transformationText (b : Binding) (context : ContextId)
    (members : List String) :
    (transformationText b context members).toList.getLast? = some '\n' := by
  unfold transformationText
  exact getLast?_append_of_getLast? (by decide)

theorem Declaration.gives_transformation (binding : Binding) (context : ContextId)
    (members : List String) :
    (Declaration.transformation binding context members).Gives (bindingName binding.id) := by
  refine ⟨transformationText binding context members, _, by rw [text],
    .inr (getLast?_transformationText binding context members), .inr ?_⟩
  simp [String.append_assoc]

/-! ### Names -/

theorem contextName_injective {c c' : ContextId} (h : contextName c = contextName c') : c = c' :=
  Nat.repr_inj.mp ((String.append_right_inj _).mp h)

theorem scopeName_injective {c c' : ContextId} (h : scopeName c = scopeName c') : c = c' :=
  contextName_injective ((String.append_right_inj _).mp h)

theorem bindingName_injective {b b' : BindingId} (h : bindingName b = bindingName b') : b = b' :=
  Nat.repr_inj.mp ((String.append_right_inj _).mp h)

theorem scopeName_ne_contextName (c c' : ContextId) : scopeName c ≠ contextName c' := by
  intro h
  have hhead := congrArg (fun name => name.toList.head?) h
  simp [scopeName, contextName] at hhead

theorem scopeName_ne_bindingName (c : ContextId) (b : BindingId) :
    scopeName c ≠ bindingName b := by
  intro h
  have hhead := congrArg (fun name => name.toList.head?) h
  simp [scopeName, bindingName] at hhead

namespace Probe

/-! ### Emission -/

/-- `p'` is the program `p` with the text `t` emitted; what is committed stays as it is, and new
marks stand in the text. -/
structure Emits (p p' : Probe) (t : String) : Prop where
  pending : p'.pending = p.pending ++ t
  text : p'.text = p.text
  chain : p'.chain = p.chain
  merged : p'.merged = p.merged
  markupFile : p'.markupFile = p.markupFile
  declarations : p'.declarations = p.declarations
  marks : p.Tidy → ∃ new, p'.marks = p.marks ++ new ∧
    InRow p.pending.utf8ByteSize p'.pending.utf8ByteSize new

variable {p p' p'' : Probe} {t t' : String}

theorem Emits.tidy (h : Emits p p' t) (hp : p.Tidy) : p'.Tidy := by
  obtain ⟨new, hnew, hrow⟩ := h.marks hp
  rw [Tidy, hnew]
  exact InRow.append hp hrow

theorem Emits.refl (p : Probe) : Emits p p "" :=
  ⟨String.append_empty.symm, rfl, rfl, rfl, rfl, rfl,
    fun _ => ⟨[], (List.append_nil _).symm, Nat.le_refl _⟩⟩

theorem Emits.trans (h : Emits p p' t) (h' : Emits p' p'' t') : Emits p p'' (t ++ t') := by
  refine ⟨by rw [h'.pending, h.pending, String.append_assoc], h'.text.trans h.text,
    h'.chain.trans h.chain, h'.merged.trans h.merged, h'.markupFile.trans h.markupFile,
    h'.declarations.trans h.declarations, ?_⟩
  intro hp
  obtain ⟨new, hnew, hrow⟩ := h.marks hp
  obtain ⟨new', hnew', hrow'⟩ := h'.marks (h.tidy hp)
  exact ⟨new ++ new', by rw [hnew', hnew, List.append_assoc], hrow.append hrow'⟩

theorem Emits.of_eq (h : Emits p p' t) (ht : t = t') : Emits p p' t' := ht ▸ h

theorem size_pending_emit (p : Probe) (t : String) :
    (p.emit t).pending.utf8ByteSize = p.pending.utf8ByteSize + t.utf8ByteSize :=
  String.utf8ByteSize_append

theorem emits_emit (p : Probe) (t : String) : Emits p (p.emit t) t := by
  refine ⟨rfl, rfl, rfl, rfl, rfl, rfl, fun _ => ⟨[], (List.append_nil _).symm, ?_⟩⟩
  rw [InRow, size_pending_emit]
  exact Nat.le_add_right _ _

/-- The mark of a text stands behind all others. -/
theorem emits_emitAt (p : Probe) (t : String) (start size : Nat) (name : Option String) :
    Emits p (p.emitAt t start size name) t := by
  refine ⟨rfl, rfl, rfl, rfl, rfl, rfl, fun _ => ⟨_, rfl, Nat.le_refl _, Nat.le_add_right _ _, ?_⟩⟩
  change _ ≤ (p.emit t).pending.utf8ByteSize
  rw [size_pending_emit]
  exact Nat.add_le_add_left (Nat.min_le_left _ _) _

theorem emits_emitType (p : Probe) (type : TypeReference) :
    Emits p (p.emitType type) type.text := by
  unfold emitType TypeReference.text
  split
  · exact emits_emitAt p _ _ _ _
  · exact (emits_emit p _).trans (emits_emitAt _ _ _ _ _)

/-- What has been emitted can be anchored. -/
theorem Emits.anchor (h : Emits p p' t) (sourceStart : Nat) :
    Emits p (p'.anchor p.pending.utf8ByteSize sourceStart) t := by
  refine ⟨h.pending, h.text, h.chain, h.merged, h.markupFile, h.declarations, ?_⟩
  intro hp
  obtain ⟨new, hnew, hrow⟩ := h.marks hp
  exact ⟨_, marks_anchor hnew hp hrow sourceStart, hrow.anchored sourceStart⟩

/-- The emission of a list, one member after the other. -/
theorem exists_emits_foldl {α : Type} {f : Probe → α → Probe}
    (hf : ∀ p x, ∃ t, Emits p (f p x) t) (xs : List α) (p : Probe) :
    ∃ t, Emits p (xs.foldl f p) t := by
  induction xs generalizing p with
  | nil => exact ⟨"", .refl p⟩
  | cons x xs ih =>
    obtain ⟨t, ht⟩ := hf p x
    obtain ⟨t', ht'⟩ := ih (f p x)
    exact ⟨t ++ t', ht.trans ht'⟩

theorem exists_emits_emitSymbol (p : Probe) (s : ImportSymbol) :
    ∃ t, Emits p (p.emitSymbol s) t := by
  unfold emitSymbol
  split
  · exact ⟨_, emits_emitAt _ _ _ _ _⟩
  · dsimp only
    split
    · exact ⟨_, ((emits_emit _ _).trans (emits_emit _ _)).trans (emits_emitAt _ _ _ _ _)⟩
    · exact ⟨_, ((emits_emitAt _ _ _ _ _).trans (emits_emit _ _)).trans (emits_emitAt _ _ _ _ _)⟩

theorem exists_emits_emitSymbols (ss : List ImportSymbol) (p : Probe) :
    ∃ t, Emits p (p.emitSymbols ss) t := by
  induction ss generalizing p with
  | nil => exact ⟨"", .refl p⟩
  | cons s ss ih =>
    obtain ⟨t, ht⟩ := exists_emits_emitSymbol p s
    cases ss with
    | nil => exact ⟨t, ht⟩
    | cons s' ss =>
      obtain ⟨t', ht'⟩ := ih ((p.emitSymbol s).emit ", ")
      exact ⟨_, (ht.trans (emits_emit _ _)).trans ht'⟩

theorem exists_emits_emitImport (p : Probe) (i : Import) : ∃ t, Emits p (p.emitImport i) t := by
  unfold emitImport
  dsimp only
  split
  · exact ⟨_, ((((emits_emit _ _).trans (emits_emitAt _ _ _ _ _)).trans (emits_emit _ _)).trans
      (emits_emitAt _ _ _ _ _)).trans (emits_emit _ _)⟩
  · obtain ⟨t, ht⟩ := exists_emits_emitSymbols i.symbols (p.emit "import \x7b ")
    exact ⟨_, (((((emits_emit _ _).trans ht).trans (emits_emit _ _)).trans
      (emits_emit _ _)).trans (emits_emitAt _ _ _ _ _)).trans (emits_emit _ _)⟩

theorem exists_emits_emitImports (p : Probe) (is : List Import) :
    ∃ t, Emits p (p.emitImports is) t :=
  exists_emits_foldl exists_emits_emitImport is p

theorem exists_emits_emitHandlers (p : Probe) (names : List String) :
    ∃ t, Emits p (p.emitHandlers names) t := by
  obtain ⟨t, ht⟩ := exists_emits_foldl
    (f := fun p name => p.emit (quote name ++ ": BindingContextTransform<" ++ name ++ ">\n"))
    (fun p name => ⟨_, emits_emit p _⟩) names (p.emit "interface CustomBindingTransforms \x7b\n")
  exact ⟨_, ((emits_emit _ _).trans ht).trans (emits_emit _ _)⟩

/-! ### Declarations -/

theorem emits_emitRoot (p : Probe) (context : ContextId) (type : TypeReference) :
    Emits p (p.emitRoot context type) (Declaration.root context type).text := by
  refine (((emits_emit _ _).trans (emits_emitType _ type)).trans (emits_emit _ _)).of_eq ?_
  simp only [Declaration.text, constantText, String.append_assoc]

theorem emits_emitDirective (p : Probe) (context : ContextId) (type : TypeReference)
    (parent : ContextId) :
    Emits p (p.emitDirective context type parent)
      (Declaration.directive context type parent).text := by
  refine (((emits_emit _ _).trans (emits_emitType _ type)).trans (emits_emit _ _)).of_eq ?_
  simp only [Declaration.text, constantText, String.append_assoc]

theorem emits_emitBindingContext (p : Probe) (context : ContextId) (binding : BindingId) :
    Emits p (p.emitBindingContext context binding)
      (Declaration.bindingContext context binding).text := by
  refine (emits_emit _ _).of_eq ?_
  simp only [Declaration.text, constantText, String.append_assoc]

theorem emits_emitScope (p : Probe) (context : ContextId) :
    Emits p (p.emitScope context) (Declaration.scope context).text := by
  refine (emits_emit _ _).of_eq ?_
  simp only [Declaration.text, constantText, String.append_assoc]

theorem emits_emitTransformation (p : Probe) (b : Binding) (context : ContextId)
    (members : List String) :
    Emits p (p.emitTransformation b context members)
      (Declaration.transformation b context members).text := by
  unfold emitTransformation
  dsimp only
  refine (((((((((emits_emit _ _).trans (emits_emit _ _)).trans (emits_emit _ _)).trans
    (emits_emitAt _ _ _ _ _)).trans (emits_emit _ _)).trans (emits_emitAt _ _ _ _ _)).trans
    (emits_emit _ _)).trans (emits_emit _ _)).anchor _).of_eq ?_
  unfold Declaration.text transformationText constantText
  simp only [String.append_assoc]

/-- A declaration emits its text. -/
theorem emits_declare (p : Probe) (c : Declaration) :
    Emits { p with declarations := p.declarations ++ [c] } (p.declare c) c.text := by
  unfold declare
  cases c with
  | root context type => exact emits_emitRoot _ context type
  | directive context type parent => exact emits_emitDirective _ context type parent
  | bindingContext context binding => exact emits_emitBindingContext _ context binding
  | scope context => exact emits_emitScope _ context
  | transformation binding context members =>
    exact emits_emitTransformation _ binding context members

@[simp] theorem pending_declare (p : Probe) (c : Declaration) :
    (p.declare c).pending = p.pending ++ c.text := (emits_declare p c).pending

@[simp] theorem text_declare (p : Probe) (c : Declaration) : (p.declare c).text = p.text :=
  (emits_declare p c).text

@[simp] theorem declarations_declare (p : Probe) (c : Declaration) :
    (p.declare c).declarations = p.declarations ++ [c] := (emits_declare p c).declarations

@[simp] theorem revisions_declare (p : Probe) (c : Declaration) :
    (p.declare c).revisions = p.revisions :=
  congrArg Chain.size (emits_declare p c).chain

theorem scaffold_ne_empty (typeLibrary : String) : scaffold typeLibrary ≠ "" := by
  intro h
  unfold scaffold at h
  exact absurd (String.append_eq_empty_iff.mp h).2 (by decide)

/-- No declaration is empty. -/
theorem text_ne_empty (c : Declaration) : c.text ≠ "" := by
  have hconst : ∀ lines name rest, lines ++ constantText name rest ≠ "" := by
    intro lines name rest h
    have hlength := congrArg String.length h
    rw [constantText, String.length_append, String.length_append] at hlength
    have : "const ".length = 6 := rfl
    have : "".length = 0 := rfl
    omega
  cases c with
  | transformation binding context members => exact hconst _ _ _
  | _ =>
    intro h
    exact hconst "" _ _ ((String.empty_append).trans h)

end Probe

end ViewLint
