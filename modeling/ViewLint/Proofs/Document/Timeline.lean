import ViewLint.Proofs.Diagnostic.Rulings
import ViewLint.Proofs.Document.Refinement
import ViewLint.Proofs.Markup.Tiling
import ViewLint.Proofs.Resolve.Run
import ViewLint.Proofs.SourceMap.Lookup

/-!
# Lint states along a view

A lint directive holds from where it begins to the end of the view, however deep in the elements it
stands.  So the state at an offset is the one behind the directives that begin there or before.  The
timeline of a document keeps one state for every directive and finds the one in force by halving,
which is right because the tokens of a view stand one behind the other.

## Main definitions

* `rulings` — the lint directives of a view, each with the offset at which it begins.
* `lintState` — the state at an offset, read off the directives.
* `Timeline.ofRulings` — the states behind one directive after the other.

## Main results

* `Timeline.stateAt_ofRulings`, `Timeline.last_ofRulings` — what the halving search finds.
* `timeline_of_build` — a document has the timeline of the lint directives of its tokens.
* `suppression_is_linear` — diagnostics pass by the directives before them.
-/

namespace ViewLint

open Markup

/-! ### Directives in order -/

/-- What a lint directive says, and where it begins. -/
def Token.ruling? : Token → Option (Nat × Ruling)
  | .directive (.lint location keys enable) => some (location.start, ⟨keys, enable⟩)
  | _ => none

/-- The lint directives of a view, each with the offset at which it begins. -/
def rulings (ts : List Token) : List (Nat × Ruling) := ts.filterMap Token.ruling?

/-- The lint state behind the directives that begin at an offset or before it, or behind all of
them. -/
def lintState (ts : List Token) : Option Nat → Suppression
  | some o => .after (((rulings ts).filter (·.1 ≤ o)).map (·.2))
  | none => .after ((rulings ts).map (·.2))

namespace Timeline

/-- The state behind a directive, from where it begins. -/
def record (before : Nat × Suppression) (x : Nat × Ruling) : Nat × Suppression :=
  (x.1, before.2.obey x.2)

/-- The states behind one directive after the other. -/
def ofRulings (xs : List (Nat × Ruling)) : Timeline := ⟨(xs.scanl record (0, .initial)).toArray⟩

variable {xs : List (Nat × Ruling)} {b : Nat × Suppression} {o : Nat}

theorem snd_foldl_record (xs : List (Nat × Ruling)) (b : Nat × Suppression) :
    (xs.foldl record b).2 = (xs.map (·.2)).foldl Suppression.obey b.2 := by
  induction xs generalizing b with
  | nil => rfl
  | cons x xs ih => rw [List.foldl_cons, List.map_cons, List.foldl_cons, ih, record]

/-- The states begin where their directives do. -/
theorem map_fst_scanl_record (xs : List (Nat × Ruling)) (b : Nat × Suppression) :
    (xs.scanl record b).map (·.1) = b.1 :: xs.map (·.1) := by
  induction xs generalizing b with
  | nil => rfl
  | cons x xs ih => rw [List.scanl_cons, List.map_cons, ih, List.map_cons, record]

theorem pairwise_scanl_record (hb : ∀ x ∈ xs, b.1 ≤ x.1) (hxs : xs.Pairwise (·.1 ≤ ·.1)) :
    (xs.scanl record b).Pairwise (·.1 ≤ ·.1) := by
  have hsorted : ((xs.scanl record b).map (·.1)).Pairwise (· ≤ ·) := by
    rw [map_fst_scanl_record, List.pairwise_cons]
    refine ⟨?_, List.pairwise_map.mpr hxs⟩
    intro start hstart
    obtain ⟨x, hx, rfl⟩ := List.mem_map.mp hstart
    exact hb x hx
  exact List.pairwise_map.mp hsorted

/-- The states that begin at an offset or before it are those behind the directives that do. -/
theorem takeWhile_scanl_record (hb : b.1 ≤ o) (hxs : xs.Pairwise (·.1 ≤ ·.1)) :
    (xs.scanl record b).takeWhile (·.1 ≤ o) = (xs.filter (·.1 ≤ o)).scanl record b := by
  induction xs generalizing b with
  | nil => simp [hb]
  | cons x xs ih =>
    rw [List.pairwise_cons] at hxs
    rw [List.scanl_cons, List.takeWhile_cons_of_pos (by simpa using hb)]
    by_cases hx : x.1 ≤ o
    · rw [List.filter_cons_of_pos (by simpa using hx), List.scanl_cons]
      exact congrArg (b :: ·) (ih hx hxs.2)
    · -- what comes later begins behind the offset, too
      have hlater : (x :: xs).filter (·.1 ≤ o) = [] := by
        rw [List.filter_eq_nil_iff]
        intro y hy
        rcases List.mem_cons.mp hy with rfl | hy
        · simpa using hx
        · have hle := hxs.1 y hy
          simp only [decide_eq_true_eq]
          omega
      have hnone : (xs.scanl record (record b x)).takeWhile (·.1 ≤ o) = [] := by
        cases xs <;> simp [record, hx]
      rw [hlater, hnone, List.scanl_nil]

/-- The state in force at an offset is the one behind the directives that begin there or before. -/
theorem stateAt_ofRulings (hxs : xs.Pairwise (·.1 ≤ ·.1)) (o : Nat) :
    (ofRulings xs).stateAt o = .after ((xs.filter (·.1 ≤ o)).map (·.2)) := by
  have hpairwise : (ofRulings xs).marks.toList.Pairwise fun a c =>
      decide (c.1 ≤ o) = true → decide (a.1 ≤ o) = true := by
    refine (pairwise_scanl_record (fun x _ => Nat.zero_le x.1) hxs).imp ?_
    intro a c hac hc
    rw [decide_eq_true_eq] at hc ⊢
    exact Nat.le_trans hac hc
  have hfirst := takeWhile_scanl_record (b := (0, .initial)) (Nat.zero_le o) hxs
  have hlast : (ofRulings xs).marks[bisect (fun mark => mark.1 ≤ o) (ofRulings xs).marks - 1]? =
      some ((xs.filter (·.1 ≤ o)).foldl record (0, .initial)) := by
    rw [bisect_eq_length_takeWhile hpairwise, ← Array.getElem?_toList, ← List.getLast?_scanl,
      ← hfirst]
    apply getElem?_length_takeWhile
    rw [ofRulings, hfirst]
    exact List.scanl_ne_nil
  rw [stateAt, hlast, Option.map_some, Option.getD_some, snd_foldl_record]
  rfl

theorem last_ofRulings (xs : List (Nat × Ruling)) :
    (ofRulings xs).last = .after (xs.map (·.2)) := by
  rw [last, ofRulings, List.back?_toArray, List.getLast?_scanl, Option.map_some,
    Option.getD_some, snd_foldl_record]
  rfl

end Timeline

/-! ### Tokens in order -/

/-- The tokens of a view begin one behind the other. -/
theorem pairwise_start_of_tokenize {file : String} {text : List Char} {options : Options}
    {tokenized : Tokenized} (h : tokenize file text options = .ok tokenized) :
    tokenized.tokens.Pairwise fun x y => x.location.start < y.location.start := by
  refine (row_of_tokenize h).pairwise.imp ?_
  rintro x y ⟨i, j, k, n, hx, hy, hle⟩
  obtain ⟨u, hxplace⟩ := hx.exists_stands
  obtain ⟨v, hyplace⟩ := hy.exists_stands
  have hstop : x.location.stop ≤ y.location.start := by
    rw [hxplace.stop_eq, hyplace.start_eq]
    exact bytes_take_mono _ hle
  exact Nat.lt_of_lt_of_le hx.faithful.1 hstop

theorem pairwise_rulings {file : String} {text : List Char} {options : Options}
    {tokenized : Tokenized} (h : tokenize file text options = .ok tokenized) :
    (rulings tokenized.tokens).Pairwise (·.1 ≤ ·.1) := by
  have hstart : ∀ {x : Token} {r : Nat × Ruling}, x.ruling? = some r → r.1 = x.location.start := by
    intro x r hr
    unfold Token.ruling? at hr
    split at hr
    · cases hr
      rfl
    · cases hr
  refine (pairwise_start_of_tokenize h).filterMap Token.ruling? ?_
  intro x y hxy r hr r' hr'
  rw [hstart hr, hstart hr']
  exact Nat.le_of_lt hxy

/-! ### Documents and their tokens -/

namespace Machine

/-- The directive that a token is. -/
def directive? : Token → Option Directive
  | .directive content => some content
  | .element _ => none

theorem directives_directive (file : String) (m : Machine) (content : Directive) :
    (m.directive file content).directives = m.directives ++ [content] := by
  cases content with
  | viewmodel location type =>
    rw [directive]
    split <;> rfl
  | _ => rfl

theorem directives_element [ScriptParser] (file : String) (registry : Handlers) (m : Machine)
    (e : Element) :
    (m.element file registry e).2.directives = m.directives := by
  rw [element]
  split <;> rfl

theorem directives_step [ScriptParser] (file : String) (registry : Handlers) (m : Machine)
    (x : Token) :
    (m.step file registry x).directives = m.directives ++ (directive? x).toList := by
  cases x with
  | directive content => exact directives_directive file m content
  | element e =>
    rw [directive?, Option.toList_none, List.append_nil]
    dsimp only [step]
    split
    · exact directives_element file registry m e
    · exact directives_element file registry m e
    · split <;> rfl

/-- The log has the directives of the tokens, wherever they stand. -/
theorem directives_run [ScriptParser] (file : String) (registry : Handlers) (ts : List Token) :
    (run file registry ts).directives = ts.filterMap directive? := by
  have hfoldl : ∀ (ts : List Token) (m : Machine),
      (ts.foldl (step file registry) m).directives = m.directives ++ ts.filterMap directive? := by
    intro ts
    induction ts with
    | nil =>
      intro m
      exact (List.append_nil _).symm
    | cons x ts ih =>
      intro m
      rw [List.foldl_cons, ih, directives_step, List.append_assoc]
      cases hx : directive? x <;> simp [hx]
  exact hfoldl ts initial

theorem rulings_eq [ScriptParser] (file : String) (registry : Handlers) (ts : List Token) :
    (run file registry ts).lints.map (fun l => (l.1.start, ⟨l.2.1, l.2.2⟩)) = rulings ts := by
  rw [lints, directives_run, List.filterMap_filterMap, List.map_filterMap, rulings]
  congr 1
  funext x
  cases x with
  | element e => rfl
  | directive content => cases content <;> rfl

theorem marks_eq [ScriptParser] (file : String) (registry : Handlers) (ts : List Token) :
    (run file registry ts).marks = (rulings ts).scanl Timeline.record (0, .initial) := by
  rw [← rulings_eq file registry ts, List.scanl_map]
  rfl

end Machine

variable {file text : String} {tokenized : Tokenized} {handlers : Handlers} {d : Document}

/-- A document has the timeline of the lint directives of its tokens. -/
theorem timeline_of_build [ScriptParser]
    (hd : (build file text tokenized handlers).document = some d) :
    d.timeline = .ofRulings (rulings tokenized.tokens) := by
  rw [document_eq_machine hd, Machine.document, Machine.marks_eq]
  rfl

/-- The directives in force where a diagnostic stands decide about it, or all of them if it stands
nowhere. -/
theorem allows_of_build [ScriptParser] {t : List Char} {options : Options}
    (ht : tokenize file t options = .ok tokenized)
    (hd : (build file text tokenized handlers).document = some d) (x : Diagnostic) :
    d.timeline.allows x =
      (lintState tokenized.tokens (x.location.map (·.start))).allows x := by
  rw [Timeline.allows, timeline_of_build hd]
  cases x.location with
  | some l => exact congrArg (·.allows x) (Timeline.stateAt_ofRulings (pairwise_rulings ht) l.start)
  | none => exact congrArg (·.allows x) (Timeline.last_ofRulings _)

/-! ### Resolutions -/

namespace Resolving

variable {U : Type} {e : Engine U}

/-- The outcome has the reported diagnostics that pass. -/
def Passing (d : Document) (r : Resolved) (e : Engine U) : Prop :=
  r.diagnostics = e.diagnostics.filter d.timeline.allows

theorem ensures_conclude_passing (o : Oracle U) (d : Document) :
    Ensures (conclude o d) e (Passing d) fun _ _ => True := by
  unfold conclude
  refine .bind (ensures_get ?_)
  dsimp only
  split
  · refine .bind (ensures_of_forall ?_ fun _ _ => trivial)
    intro _ e'
    refine .bind (ensures_of_forall ?_ fun _ _ => trivial)
    intro found e''
    exact rfl
  · refine .bind (ensures_of_forall ?_ fun _ _ => trivial)
    intro found e'
    exact rfl

end Resolving

theorem diagnostics_of_resolve {U : Type} {o : Oracle U} {typeLibrary : String} {r : Resolved}
    (h : resolve o d typeLibrary = .ok r) :
    r.diagnostics = (runResolve o d typeLibrary).2.diagnostics.filter d.timeline.allows := by
  have hrun : Resolving.Ensures (resolving o d) (.initial d typeLibrary)
      (Resolving.Passing d) fun _ _ => True := by
    refine Resolving.Ensures.bind (Resolving.ensures_of_forall ?_ fun _ _ => trivial)
    intro _ e
    exact Resolving.ensures_conclude_passing o d
  exact hrun.of_ok h

/-- **Suppression is linear in the document.**  The state at an offset of a view is the one behind
the lint directives among its tokens that begin there or before, one after the other, at whatever
depth of the elements they stand.  Building and resolving the view give what they report, in the
order of the reports, as far as it is allowed by the state where it stands; what stands nowhere is
up to the state behind all directives. -/
theorem suppression_is_linear [ScriptParser] {t : List Char} {options : Options}
    (ht : tokenize file t options = .ok tokenized)
    (hd : (build file text tokenized handlers).document = some d) :
    let passes (x : Diagnostic) : Bool :=
      (lintState tokenized.tokens (x.location.map (·.start))).allows x
    (∀ o, d.timeline.stateAt o = lintState tokenized.tokens (some o)) ∧
    (∃ b rest, buildTokens file text tokenized handlers = .ok (b, rest) ∧
      (build file text tokenized handlers).diagnostics = b.finish.diagnostics.filter passes) ∧
    ∀ {U : Type} (o : Oracle U) (typeLibrary : String) (r : Resolved),
      resolve o d typeLibrary = .ok r →
      r.diagnostics = (runResolve o d typeLibrary).2.diagnostics.filter passes := by
  intro passes
  have hallows : d.timeline.allows = passes := funext (allows_of_build ht hd)
  refine ⟨?_, ?_, ?_⟩
  · intro o
    rw [timeline_of_build hd]
    exact Timeline.stateAt_ofRulings (pairwise_rulings ht) o
  · obtain ⟨b, rest, hbuild, hdocument, hbuilt⟩ := exists_buildTokens hd
    refine ⟨b, rest, hbuild, ?_⟩
    rw [hbuilt, ← hallows, ← hdocument, ← Builder.document_finish]
    rfl
  · intro U o typeLibrary r hr
    rw [← hallows]
    exact diagnostics_of_resolve hr

/-- A directive inside an element silences two kinds of diagnostics, and another one silences all of
them for a while. -/
def silencedView : String :=
  "<p><!-- ko-lint-disable KO0005 KO0012 --></p><!-- ko-viewmodel V --><b data-bind=a:1></b>" ++
    "<!-- ko-lint-disable --><b data-bind=...a></b><!-- ko-lint-enable --><b data-bind=...a></b>"

/-- A type checker that knows nothing. -/
def speechlessOracle : Oracle Unit where
  compile _ _ := .ok ()
  inspect _ _ := .ok []
  findings _ := .ok []

/-- The codes of diagnostics, and the offsets at which they stand. -/
def spots (xs : List Diagnostic) : List (String × Option Nat) :=
  xs.map fun x => (x.code, x.location.map (·.start))

theorem suppression_is_linear_silencedView :
    ∃ tokenized d b rest r,
      tokenize "view.html" silencedView.toList ⟨["data-bind"], false⟩ = .ok tokenized ∧
      (build "view.html" silencedView tokenized ⟨.empty, .empty⟩).document = some d ∧
      rulings tokenized.tokens =
        [(8, ⟨["KO0005", "KO0012"], false⟩), (94, ⟨[], false⟩), (140, ⟨[], true⟩)] ∧
      d.timeline.stateAt 68 = .after [⟨["KO0005", "KO0012"], false⟩] ∧
      buildTokens "view.html" silencedView tokenized ⟨.empty, .empty⟩ = .ok (b, rest) ∧
      spots b.finish.diagnostics =
        [("KO0004", some 126), ("KO0004", some 171), ("KO0005", some 63)] ∧
      (build "view.html" silencedView tokenized ⟨.empty, .empty⟩).diagnostics =
        b.finish.diagnostics.filter (fun x =>
          (lintState tokenized.tokens (x.location.map (·.start))).allows x) ∧
      spots (build "view.html" silencedView tokenized ⟨.empty, .empty⟩).diagnostics =
        [("KO0004", some 171)] ∧
      resolve speechlessOracle d "lib" = .ok r ∧
      spots (runResolve speechlessOracle d "lib").2.diagnostics = [("KO0012", some 68)] ∧
      r.diagnostics = (runResolve speechlessOracle d "lib").2.diagnostics.filter (fun x =>
          (lintState tokenized.tokens (x.location.map (·.start))).allows x) ∧
      r.diagnostics = [] := by
  -- reading, building and resolving the view is a computation
  have hview :
      ((tokenize "view.html" silencedView.toList ⟨["data-bind"], false⟩).toOption.bind
        fun tokenized =>
        (build "view.html" silencedView tokenized ⟨.empty, .empty⟩).document.bind fun d =>
        (buildTokens "view.html" silencedView tokenized ⟨.empty, .empty⟩).toOption.bind fun built =>
        (resolve speechlessOracle d "lib").toOption.map fun r => (rulings tokenized.tokens,
          [spots built.1.finish.diagnostics,
            spots (build "view.html" silencedView tokenized ⟨.empty, .empty⟩).diagnostics,
            spots (runResolve speechlessOracle d "lib").2.diagnostics, spots r.diagnostics])) =
      some ([(8, ⟨["KO0005", "KO0012"], false⟩), (94, ⟨[], false⟩), (140, ⟨[], true⟩)],
        [[("KO0004", some 126), ("KO0004", some 171), ("KO0005", some 63)], [("KO0004", some 171)],
          [("KO0012", some 68)], []]) := by
    decide +kernel
  obtain ⟨tokenized, ht, hview⟩ := Option.bind_eq_some_iff.mp hview
  obtain ⟨d, hd, hview⟩ := Option.bind_eq_some_iff.mp hview
  obtain ⟨⟨b, rest⟩, hbuild, hview⟩ := Option.bind_eq_some_iff.mp hview
  obtain ⟨r, hr, hview⟩ := Option.map_eq_some_iff.mp hview
  rw [Except.toOption_eq_some] at ht hbuild hr
  simp only [Prod.mk.injEq, List.cons.injEq, and_true] at hview
  obtain ⟨hrulings, hreported, hgiven, hfound, hresolved⟩ := hview
  obtain ⟨hstate, ⟨b', rest', hbuild', hdiagnostics⟩, hresolve⟩ := suppression_is_linear ht hd
  obtain ⟨rfl, rfl⟩ := Prod.mk.inj (Except.ok.inj (hbuild.symm.trans hbuild'))
  refine ⟨tokenized, d, b, rest, r, ht, hd, hrulings, ?_, hbuild, hreported,
    hdiagnostics, hgiven, hr, hfound, hresolve speechlessOracle "lib" r hr,
    List.map_eq_nil_iff.mp hresolved⟩
  rw [hstate, lintState, hrulings]
  rfl

end ViewLint
