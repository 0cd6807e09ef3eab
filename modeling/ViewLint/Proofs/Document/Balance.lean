import ViewLint.Proofs.Document.Frames
import ViewLint.Script.Accept

/-!
# Balanced tags

Whether the tags of a view make a tree can be told from the tags alone: every start tag goes on a
stack, as long as the stack is not too high, and every end tag has to take its start tag from
the top.  Building a document keeps no such stack, and yet accepts the same views and stops at the
same tag.

## Main definitions

* `Misfit` — the tag at which the tags of a view fail to make a tree.
* `stackTag`, `replay` — the effect of one tag and of all tags on a stack of open elements.
* `Stacked` — the open elements of frames, the innermost first.
* `StopsAt` — there is no document because of a tag, which is reported last.

## Main results

* `Stacked.agrees_step` — a token does the same to the frames and to the stack.
* `build_accepts_iff_balanced` — a view has a document just if its tags are balanced, and else
  the tag at fault is reported last.
-/

namespace ViewLint

open Markup

/-! ### The stack of open elements -/

/-- The tag at which the tags of a view fail to make a tree. -/
inductive Misfit where
  /-- A start tag inside as many elements as may be open. -/
  | tooDeep (e : Element)
  /-- An end tag that does not fit the innermost open element. -/
  | unmatched (e : Element)
  /-- The start tag of the innermost element that is open at the end. -/
  | unclosed (e : Element)
  deriving DecidableEq, Repr

namespace Misfit

/-- The tag itself. -/
def element : Misfit → Element
  | tooDeep e => e
  | unmatched e => e
  | unclosed e => e

/-- The code that a tag at fault is reported with. -/
def code : Misfit → String
  | tooDeep _ => "KO0014"
  | unmatched _ => "KO0010"
  | unclosed _ => "KO0010"

/-- A tag at fault as the reason why there is no tree. -/
def incomplete : Misfit → Incomplete
  | tooDeep e => .tooDeep e
  | unmatched e => .unbalanced e.location
  | unclosed e => .unbalanced e.location

end Misfit

/-- The effect of one token on a stack of open elements, the innermost first. -/
def stackTag (stack : List Element) : Token → Except Misfit (List Element)
  | .directive _ => .ok stack
  | .element e =>
    match e.type, stack with
    | .start, _ => if stack.length < maxNesting then .ok (e :: stack) else .error (.tooDeep e)
    | .stop, o :: rest => if o.tag = e.tag then .ok rest else .error (.unmatched e)
    | .stop, [] => .error (.unmatched e)
    | .empty, _ => .ok stack

/-- The end of a view, where no element may be open. -/
def stackEnd : List Element → Except Misfit Unit
  | [] => .ok ()
  | o :: _ => .error (.unclosed o)

/-- Puts the tags of a view on a stack and takes them from it, from the first to the last. -/
def replay (ts : List Token) : Except Misfit Unit := do
  stackEnd (← ts.foldlM stackTag [])

/-! ### Frames and the stack -/

/-- The elements that some frames are the content of, the innermost first.  Only the last frame is
not inside an element, and every other one is one level deeper than the frame around it. -/
def Stacked : Frame → List Frame → List Element → Prop
  | f, [], stack => f.opened = none ∧ f.depth = 0 ∧ stack = []
  | f, g :: fs, stack => ∃ e rest, f.opened = some e ∧ f.depth = rest.length + 1 ∧
    stack = e :: rest ∧ Stacked g fs rest

/-- Two ways of reading agree: both go on, with what they have found related by `R`, or both stop
for the same reason. -/
def Agrees {α β : Type} (R : α → β → Prop) :
    Except Misfit α → Except (Incomplete × Builder) β → Prop
  | .ok a, .ok b => R a b
  | .error m, .error (i, _) => i = m.incomplete
  | _, _ => False

theorem Agrees.bind {α β γ δ : Type} {R : α → β → Prop} {S : γ → δ → Prop}
    {x : Except Misfit α} {y : Except (Incomplete × Builder) β} {f : α → Except Misfit γ}
    {g : β → Except (Incomplete × Builder) δ} (h : Agrees R x y)
    (hfg : ∀ a b, R a b → Agrees S (f a) (g b)) : Agrees S (x >>= f) (y >>= g) := by
  cases x with
  | error m =>
    cases y with
    | error r => exact h
    | ok b => exact h.elim
  | ok a =>
    cases y with
    | error r => exact h.elim
    | ok b => exact hfg a b h

namespace Stacked

variable {f : Frame} {fs : List Frame} {stack : List Element}

/-- As many elements are open as a frame is deep. -/
theorem depth_eq (h : Stacked f fs stack) : f.depth = stack.length := by
  cases fs with
  | nil =>
    obtain ⟨-, hdepth, rfl⟩ := h
    exact hdepth
  | cons g fs =>
    obtain ⟨e, rest, -, hdepth, rfl, -⟩ := h
    exact hdepth

/-- The node that is active in a frame does not matter. -/
theorem setCurrent (h : Stacked f fs stack) (current : NodeId) :
    Stacked { f with current } fs stack := by
  cases fs with
  | nil => exact h
  | cons g fs => exact h

/-- A token does the same to the frames and to the stack. -/
theorem agrees_step [ScriptParser] (h : Stacked f fs stack) (b : Builder) (t : Token) :
    Agrees (fun stack' s => Stacked s.frame s.around stack') (stackTag stack t)
      ((Nest.mk f fs b).step t) := by
  cases t with
  | directive d => exact h.setCurrent _
  | element e =>
    cases htype : e.type with
    | empty =>
      simp only [stackTag, Nest.step, htype]
      exact h
    | start =>
      simp only [stackTag, Nest.step, htype]
      have hdepth := h.depth_eq
      by_cases hlt : stack.length < maxNesting
      · rw [if_pos hlt, if_neg (by omega)]
        exact ⟨e, stack, rfl, congrArg (· + 1) hdepth, rfl, h⟩
      · rw [if_neg hlt, if_pos (by omega)]
        rfl
    | stop =>
      cases fs with
      | nil =>
        -- no element is open
        obtain ⟨hopened, -, rfl⟩ := h
        simp only [stackTag, Nest.step, htype, hopened]
        rfl
      | cons g fs =>
        obtain ⟨o, rest, hopened, -, rfl, hrest⟩ := h
        simp only [stackTag, Nest.step, htype, hopened, beq_iff_eq]
        by_cases htag : o.tag = e.tag
        · rw [if_pos htag, if_pos htag]
          exact hrest
        · rw [if_neg htag, if_neg htag]
          rfl

theorem agrees_close (h : Stacked f fs stack) (b : Builder) :
    Agrees (fun _ _ => True) (stackEnd stack) (Nest.mk f fs b).close := by
  cases fs with
  | nil =>
    obtain ⟨hopened, -, rfl⟩ := h
    simp only [Nest.close, hopened]
    exact trivial
  | cons g fs =>
    obtain ⟨o, rest, hopened, -, rfl, -⟩ := h
    simp only [Nest.close, hopened]
    rfl

/-- All tokens do the same to the frames and to the stack. -/
theorem agrees_run [ScriptParser] (h : Stacked f fs stack) (b : Builder) (ts : List Token) :
    Agrees (fun _ _ => True) (ts.foldlM stackTag stack >>= stackEnd) ((Nest.mk f fs b).run ts) := by
  induction ts generalizing f fs stack b with
  | nil => exact h.agrees_close b
  | cons t ts ih =>
    rw [List.foldlM_cons, bind_assoc, Nest.run_cons]
    refine (h.agrees_step b t).bind ?_
    rintro stack' ⟨f', fs', b'⟩ h'
    exact ih h' b'

end Stacked

/-! ### Documents -/

theorem agrees_buildTokens [ScriptParser] (file text : String) (tokenized : Tokenized)
    (handlers : Handlers) :
    Agrees (fun _ _ => True) (replay tokenized.tokens)
      (buildTokens file text tokenized handlers) := by
  have hstacked : Stacked ⟨Document.root, none, none, 0⟩ [] [] := ⟨rfl, rfl, rfl⟩
  have h := hstacked.agrees_run (.initial file text tokenized.dialect handlers) tokenized.tokens
  have hrun := buildTokens_eq_run file text tokenized handlers
  rw [Nest.initial] at hrun
  rw [← hrun] at h
  change Agrees _ (replay tokenized.tokens) _ at h
  -- what is left of the tokens does not matter
  generalize buildTokens file text tokenized handlers = r at h ⊢
  generalize replay tokenized.tokens = q at h ⊢
  cases r with
  | error failure =>
    cases q with
    | error m => exact h
    | ok _ => exact h
  | ok r =>
    cases q with
    | error m => exact h
    | ok _ => trivial

/-- The tag at fault is what is reported last. -/
theorem getLast?_reportIncomplete (b : Builder) (m : Misfit) :
    ∃ d, (b.reportIncomplete m.incomplete).diagnostics.getLast? = some d ∧ d.code = m.code ∧
      d.location = some m.element.location := by
  cases m with
  | tooDeep e => exact ⟨_, List.getLast?_concat, rfl, rfl⟩
  | unmatched e => exact ⟨_, List.getLast?_concat, rfl, rfl⟩
  | unclosed e => exact ⟨_, List.getLast?_concat, rfl, rfl⟩

/-- Building stops at a tag: there is no document, and the diagnostics are those that lint
directives let pass of a list whose last entry is on that tag. -/
def StopsAt [ScriptParser] (file text : String) (tokenized : Tokenized) (handlers : Handlers)
    (m : Misfit) :
    Prop :=
  ∃ b : Builder, buildTokens file text tokenized handlers = .error (m.incomplete, b) ∧
    build file text tokenized handlers = ⟨none,
      (b.reportIncomplete m.incomplete).diagnostics.filter b.document.timeline.allows⟩ ∧
    ∃ d : Diagnostic, (b.reportIncomplete m.incomplete).diagnostics.getLast? = some d ∧
      d.code = m.code ∧ d.location = some m.element.location

theorem stopsAt_of_buildTokens [ScriptParser] {file text : String} {tokenized : Tokenized}
    {handlers : Handlers} {m : Misfit} {b : Builder}
    (h : buildTokens file text tokenized handlers = .error (m.incomplete, b)) :
    StopsAt file text tokenized handlers m := by
  refine ⟨b, h, ?_, getLast?_reportIncomplete b m⟩
  rw [build, h]
  dsimp only [Builder.allowed]
  -- reporting leaves the lint directives as they are
  cases m <;> rfl

/-- **A view has a document just if its tags are balanced.**  If they are not, the last
diagnostic before lint directives have their say is on the first tag at fault: a start tag that
is too deep, an end tag that does not fit, or the innermost start tag that is never closed. -/
theorem build_accepts_iff_balanced [ScriptParser] (file text : String) (tokenized : Tokenized)
    (handlers : Handlers) :
    ((build file text tokenized handlers).document.isSome ↔ replay tokenized.tokens = .ok ()) ∧
    ∀ m, replay tokenized.tokens = .error m → StopsAt file text tokenized handlers m := by
  have h := agrees_buildTokens file text tokenized handlers
  cases hreplay : replay tokenized.tokens with
  | ok _ =>
    rw [hreplay] at h
    cases hbuild : buildTokens file text tokenized handlers with
    | error failure =>
      rw [hbuild] at h
      exact h.elim
    | ok r =>
      constructor
      · rw [build, hbuild]
        exact iff_of_true rfl rfl
      · intro m hm
        cases hm
  | error m =>
    rw [hreplay] at h
    cases hbuild : buildTokens file text tokenized handlers with
    | ok r =>
      rw [hbuild] at h
      exact h.elim
    | error failure =>
      obtain ⟨i, b⟩ := failure
      rw [hbuild] at h
      cases h
      constructor
      · rw [build, hbuild]
        exact iff_of_false Bool.false_ne_true (fun hok => nomatch hok)
      · intro m' hm
        cases hm
        exact stopsAt_of_buildTokens hbuild

/-- A tag that has its name and its place only. -/
def bareTag (name : String) (type : TagType) (start : Nat) : Element :=
  ⟨name, type, ⟨default, default, start, start + 3⟩, [], false⟩

/-- Two elements that overlap, in a view that silences what is reported on it. -/
def crossedTags : Tokenized :=
  ⟨[.directive (.lint default [] false), .element (bareTag "p" .start 0),
    .element (bareTag "b" .start 3), .element (bareTag "i" .empty 6),
    .element (bareTag "p" .stop 9), .element (bareTag "b" .stop 12)], .html⟩

/-- One element more than may be open. -/
def deepTags : Tokenized :=
  ⟨List.replicate maxNesting (.element (bareTag "p" .start 0)) ++
    [.element (bareTag "b" .start 3), .element (bareTag "i" .stop 6)], .html⟩

theorem build_accepts_iff_balanced_misfits :
    (replay crossedTags.tokens = .error (.unmatched (bareTag "p" .stop 9)) ∧
      StopsAt "view.html" "" crossedTags ⟨.empty, .empty⟩ (.unmatched (bareTag "p" .stop 9))) ∧
    (replay deepTags.tokens = .error (.tooDeep (bareTag "b" .start 3)) ∧
      StopsAt "view.html" "" deepTags ⟨.empty, .empty⟩ (.tooDeep (bareTag "b" .start 3))) := by
  have hcrossed : replay crossedTags.tokens = .error (.unmatched (bareTag "p" .stop 9)) := by
    decide
  have hdeep : replay deepTags.tokens = .error (.tooDeep (bareTag "b" .start 3)) := by
    decide +kernel
  have hcrossedStops := (build_accepts_iff_balanced "view.html" "" crossedTags
    ⟨.empty, .empty⟩).2 _ hcrossed
  have hdeepStops := (build_accepts_iff_balanced "view.html" "" deepTags
    ⟨.empty, .empty⟩).2 _ hdeep
  exact ⟨⟨hcrossed, hcrossedStops⟩, hdeep, hdeepStops⟩

end ViewLint
