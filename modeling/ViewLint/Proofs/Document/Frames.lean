import Mathlib.Tactic.Common
import ViewLint.Document.Build

/-!
# The frames of open elements

The content of an element is read by a call of its own, and the frames of the elements around it
wait until that call returns at the end tag.  Here the waiting frames are kept in a list instead,
so that the tokens of a view are read one after the other.  What a token does is then one step,
and what holds of all tokens follows by induction over their list.

## Main definitions

* `Nest` — the frames of the open elements, and what has been built.
* `Nest.step` — the effect of one token.
* `Nest.run` — the effect of all tokens of a view.

## Main results

* `Nest.run_eq_children` — a run is a call, and then the runs of the frames that wait for it.
* `buildTokens_eq_run` — reading a view call by call and step by step are the same.
-/

namespace ViewLint

open Markup

variable [ScriptParser]

/-- The frame of the innermost open element, those around it, and what has been built. -/
structure Nest where
  frame : Frame
  around : List Frame
  builder : Builder

namespace Nest

/-- The frame of the content of an element inside all others. -/
def enter (s : Nest) (e : Element) : Nest :=
  let ((current, context), b) := s.builder.element s.frame.current s.frame.context e
  ⟨⟨current, context, some e, s.frame.depth + 1⟩, s.frame :: s.around, b⟩

/-- The effect of one token, or why there is no tree. -/
def step (s : Nest) : Token → Except (Incomplete × Builder) Nest
  | .directive d =>
    let (current, b) := s.builder.directive s.frame.current d
    .ok { s with frame := { s.frame with current }, builder := b }
  | .element e =>
    match e.type with
    | .stop =>
      match s.frame.opened, s.around with
      | some o, f :: fs =>
        if o.tag == e.tag then .ok ⟨f, fs, s.builder⟩
        else .error (.unbalanced e.location, s.builder)
      | _, _ => .error (.unbalanced e.location, s.builder)
    | .empty => .ok { s with builder := (s.builder.element s.frame.current s.frame.context e).2 }
    | .start =>
      if maxNesting ≤ s.frame.depth then .error (.tooDeep e, s.builder) else .ok (s.enter e)

/-- What has been built at the end of the tokens, where no element may be open. -/
def close (s : Nest) : Except (Incomplete × Builder) Builder :=
  match s.frame.opened with
  | some e => .error (.unbalanced e.location, s.builder)
  | none => .ok s.builder

/-- The effect of all tokens. -/
def run (s : Nest) (ts : List Token) : Except (Incomplete × Builder) Builder := do
  (← ts.foldlM step s).close

@[simp] theorem run_nil (s : Nest) : s.run [] = s.close := rfl

@[simp] theorem run_cons (s : Nest) (t : Token) (ts : List Token) :
    s.run (t :: ts) = s.step t >>= fun s' => s'.run ts := by
  unfold run
  rw [List.foldlM_cons, bind_assoc]

/-! ### Calls and steps -/

/-- Goes on with the frames that wait for an end tag, behind it. -/
def resume : List Frame → Builder × List Token → Except (Incomplete × Builder) Builder
  | [], (b, _) => .ok b
  | f :: fs, (b, ts) => (Nest.mk f fs b).run ts

/-- A call leaves tokens of those that it gets. -/
theorem length_children_le (fuel : Nat) (f : Frame) (b : Builder) (ts : List Token) {b' : Builder}
    {rest : List Token} (hok : children fuel f b ts = .ok (b', rest)) :
    rest.length ≤ ts.length := by
  induction fuel generalizing f b ts b' rest with
  | zero =>
    rw [children] at hok
    cases hok
    exact Nat.le_refl _
  | succ fuel ih =>
    cases ts with
    | nil =>
      rw [children] at hok
      split at hok
      · cases hok
      · cases hok
        exact Nat.le_refl _
      · simp
    | cons t ts =>
      cases t with
      | directive content =>
        rw [children] at hok
        exact Nat.le_succ_of_le (ih _ _ _ hok)
      | element e =>
        rw [children] at hok
        split at hok
        · split at hok
          · cases hok
            exact Nat.le_succ _
          · cases hok
        · exact Nat.le_succ_of_le (ih _ _ _ hok)
        · split at hok
          · cases hok
          · dsimp only at hok
            split at hok
            · cases hok
            · next hinner =>
              exact Nat.le_trans (ih _ _ _ hok) (Nat.le_succ_of_le (ih _ _ _ hinner))

/-- A run is a call for the innermost frame, and then the run of the frames that wait for it.
Frames wait just if an element is open. -/
theorem run_eq_children (fuel : Nat) (f : Frame) (fs : List Frame) (b : Builder)
    (ts : List Token) (hfuel : ts.length < fuel) (hopen : f.opened.isSome ↔ fs ≠ []) :
    (Nest.mk f fs b).run ts = children fuel f b ts >>= resume fs := by
  -- the induction is uniform in the waiting frames, since the content of an element adds one
  induction fuel generalizing f fs b ts with
  | zero => exact absurd hfuel (Nat.not_lt_zero _)
  | succ fuel ih =>
    cases ts with
    | nil =>
      rw [run_nil, close, children]
      · dsimp only
        cases ho : f.opened with
        | some e => rfl
        | none =>
          have hfs : fs = [] := by simpa [ho] using hopen
          rw [hfs]
          rfl
      · simp
    | cons t ts =>
      have hts : ts.length < fuel := Nat.lt_of_succ_lt_succ hfuel
      rw [run_cons]
      cases t with
      | directive content =>
        rw [children]
        exact ih _ fs _ ts hts hopen
      | element e =>
        rw [children]
        cases htype : e.type with
        | stop =>
          simp only [step, htype]
          cases ho : f.opened with
          | none => rfl
          | some o =>
            obtain ⟨g, gs, rfl⟩ := List.exists_cons_of_ne_nil (hopen.mp (by rw [ho]; rfl))
            dsimp only [Option.any_some]
            split <;> rfl
        | empty =>
          simp only [step, htype]
          exact ih f fs _ ts hts hopen
        | start =>
          simp only [step, htype]
          by_cases hdeep : maxNesting ≤ f.depth
          · rw [if_pos hdeep, if_pos hdeep]
            rfl
          · rw [if_neg hdeep, if_neg hdeep]
            -- the call for the content comes first, and what it leaves goes to this frame
            have hinner := ih ⟨(b.element f.current f.context e).1.1,
              (b.element f.current f.context e).1.2, some e, f.depth + 1⟩ (f :: fs)
              (b.element f.current f.context e).2 ts hts (by simp)
            refine hinner.trans ?_
            cases hcall : children fuel ⟨(b.element f.current f.context e).1.1,
                (b.element f.current f.context e).1.2, some e, f.depth + 1⟩
                (b.element f.current f.context e).2 ts with
            | error failure => rfl
            | ok r =>
              obtain ⟨b', rest⟩ := r
              have hrest := length_children_le fuel _ _ ts hcall
              exact ih f fs b' rest (Nat.lt_of_le_of_lt hrest hts) hopen

end Nest

/-- The state before the first token of a view. -/
def Nest.initial (file text : String) (dialect : Dialect) (handlers : Handlers) : Nest :=
  ⟨⟨Document.root, none, none, 0⟩, [], .initial file text dialect handlers⟩

/-- Reading a view call by call and step by step are the same. -/
theorem buildTokens_eq_run (file text : String) (tokenized : Tokenized) (handlers : Handlers) :
    (buildTokens file text tokenized handlers).map (·.1) =
      (Nest.initial file text tokenized.dialect handlers).run tokenized.tokens := by
  unfold buildTokens Nest.initial
  rw [Nest.run_eq_children (tokenized.tokens.length + 1) _ _ _ _ (Nat.lt_succ_self _) (by simp)]
  generalize children _ _ _ _ = r
  cases r with
  | error failure => rfl
  | ok r => rfl

end ViewLint
