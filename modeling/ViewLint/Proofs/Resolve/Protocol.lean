import ViewLint.Proofs.Resolve.Update

/-!
# The protocol of the requests

The type checker may rely on an order in the requests that it gets.  Revisions are numbered and
each one extends the ones before; it gets back the handle that it has given out last; it is
asked only about values that the newest revision declares; and no request comes after one that
has failed.

## Main definitions

* `sources`, `newest` — the revisions in a list of requests, and the newest one with its handle.
* `Declares` — a program declares a value by its name.
* `Legal` — a request that may come after others.
* `FollowsProtocol` — every request may come after those before it.
* `Engine.Traced` — the requests of a state follow the protocol, and the state knows where the
  type checker stands.

## Main results

* `Engine.Reach.traced` — every state of a resolution is traced.
* `Engine.Traced.legal` — a request that is made is legal.
* `Engine.Failed.followsProtocol` — the requests follow the protocol when one fails, too.
-/

namespace ViewLint

variable {U : Type}

/-- The revisions in a list of requests, in order. -/
def sources (calls : List (Call U)) : List SourceUnit :=
  calls.filterMap fun
    | .compile source _ => some source
    | _ => none

/-- The newest revision with the handle that the type checker has given for it. -/
def newest (o : Oracle U) (calls : List (Call U)) : Option (SourceUnit × U) :=
  calls.foldl
    (fun last call =>
      match call with
      | .compile source previous => (o.compile source previous).toOption.map (source, ·)
      | _ => last)
    none

/-- A program declares a value by its name: behind its opening stand declarations only, and one
of them gives the name. -/
def Declares (opening text name : String) : Prop :=
  ∃ declarations, text = opening ++ textOf declarations ∧ ∃ c ∈ declarations, c.Gives name

/-- A request that may come after others.  A revision bears the next number, extends all of the
revisions before, and comes with the handle of the newest one.  Questions are about the newest
revision, and about one or more different values that it declares. -/
def Legal (o : Oracle U) (opening : String) (before : List (Call U)) : Call U → Prop
  | .compile source previous =>
    source.revision = (sources before).length ∧
      (∀ s ∈ sources before, ∃ more, more ≠ "" ∧ source.text = s.text ++ more) ∧
      previous = (newest o before).map (·.2)
  | .inspect unit names =>
    names ≠ [] ∧ names.Nodup ∧
      ∃ source, newest o before = some (source, unit) ∧
        ∀ name ∈ names, Declares opening source.text name
  | .findings unit => ∃ source, newest o before = some (source, unit)

/-- Every request is legal after those before it, and none comes after one that fails. -/
def FollowsProtocol (o : Oracle U) (opening : String) (calls : List (Call U)) : Prop :=
  ∀ before call after, calls = before ++ call :: after →
    Legal o opening before call ∧ (o.failure? call ≠ none → after = [])

variable {o : Oracle U} {opening : String} {calls : List (Call U)}

/-! ### One more request -/

theorem sources_append (calls calls' : List (Call U)) :
    sources (calls ++ calls') = sources calls ++ sources calls' := List.filterMap_append

theorem newest_append_compile (calls : List (Call U)) (source : SourceUnit) (previous : Option U) :
    newest o (calls ++ [.compile source previous]) =
      (o.compile source previous).toOption.map (source, ·) := by
  rw [newest, List.foldl_append]
  rfl

theorem newest_append_inspect (calls : List (Call U)) (unit : U) (names : List String) :
    newest o (calls ++ [.inspect unit names]) = newest o calls := by
  rw [newest, List.foldl_append]
  rfl

/-- The last request of a list, or one before it. -/
theorem append_singleton_eq_append_cons {α : Type} {xs before after : List α} {x y : α}
    (h : xs ++ [x] = before ++ y :: after) :
    (before = xs ∧ y = x ∧ after = []) ∨
      ∃ after', after = after' ++ [x] ∧ xs = before ++ y :: after' := by
  rcases List.eq_nil_or_concat after with rfl | ⟨after', z, rfl⟩
  · obtain ⟨rfl, hx⟩ := List.append_inj' h rfl
    cases hx
    exact .inl ⟨rfl, rfl, rfl⟩
  · rw [List.concat_eq_append, ← List.cons_append, ← List.append_assoc] at h
    obtain ⟨rfl, hx⟩ := List.append_inj' h rfl
    cases hx
    exact .inr ⟨after', List.concat_eq_append, rfl⟩

theorem not_findings_append {call : Call U} (h : ∀ unit, .findings unit ∉ calls)
    (hcall : ∀ unit, call ≠ .findings unit) (unit : U) : .findings unit ∉ calls ++ [call] := by
  rw [List.mem_append, List.mem_singleton, not_or]
  exact ⟨h unit, (hcall unit).symm⟩

theorem FollowsProtocol.append (h : FollowsProtocol o opening calls)
    (hanswered : ∀ call ∈ calls, o.failure? call = none) {call : Call U}
    (hlegal : Legal o opening calls call) : FollowsProtocol o opening (calls ++ [call]) := by
  intro before call' after heq
  rcases append_singleton_eq_append_cons heq with ⟨rfl, rfl, rfl⟩ | ⟨after', -, rfl⟩
  · exact ⟨hlegal, fun _ => rfl⟩
  · refine ⟨(h before call' after' rfl).1, fun hfail => ?_⟩
    exact absurd (hanswered call' (by simp)) hfail

namespace Engine

/-- The requests of a state follow the protocol, none of them has failed, and the state knows
where the type checker stands: the newest revision is the committed text, and the program is
its opening with its declarations, among them all contexts. -/
structure Traced (o : Oracle U) (opening : String) (e : Engine U) : Prop where
  follows : FollowsProtocol o opening e.calls
  answered : ∀ call ∈ e.calls, o.failure? call = none
  silent : ∀ unit, .findings unit ∉ e.calls
  revisions : (sources e.calls).length = e.probe.revisions
  texts : ∀ s ∈ sources e.calls, ∃ more, e.probe.text = s.text ++ more
  unit : (newest o e.calls).map (·.2) = e.unit
  newest : ∀ source unit, newest o e.calls = some (source, unit) → source.text = e.probe.text
  fresh : e.unit = none → e.probe.text = ""
  program : e.probe.text ++ e.probe.pending = opening ++ textOf e.probe.declarations
  contexts : ∀ c, c < e.contexts.size → ∃ x ∈ e.probe.declarations, x.Gives (contextName c)

variable {d : Document} {typeLibrary : String} {e e' : Engine U}

/-- The newest revision is the committed text. -/
theorem Traced.exists_newest (h : e.Traced o opening) {unit : U} (hunit : e.unit = some unit) :
    ∃ source, ViewLint.newest o e.calls = some (source, unit) ∧ source.text = e.probe.text := by
  have hnewest := h.unit
  rw [hunit, Option.map_eq_some_iff] at hnewest
  obtain ⟨⟨source, unit'⟩, hr, rfl⟩ := hnewest
  exact ⟨source, hr, h.newest source unit' hr⟩

/-- A request that is made is legal. -/
theorem Traced.legal (h : e.Traced o opening) {call : Call U} (hreq : e.Requests call) :
    Legal o opening e.calls call := by
  cases hreq with
  | compile hpending =>
    refine ⟨h.revisions.symm, ?_, h.unit.symm⟩
    intro s hs
    obtain ⟨more, hmore⟩ := h.texts s hs
    refine ⟨more ++ e.probe.pending, ?_, ?_⟩
    · intro hempty
      exact hpending (String.append_eq_empty_iff.mp hempty).2
    · rw [← String.append_assoc, ← hmore]
      rfl
  | @inspect unit names hunit hpending hne hnodup hdeclared =>
    obtain ⟨source, hnewest, htext⟩ := h.exists_newest hunit
    refine ⟨hne, hnodup, source, hnewest, ?_⟩
    intro name hname
    -- nothing is pending, so all that has been declared is in the newest revision
    refine ⟨e.probe.declarations, ?_, hdeclared name hname⟩
    rw [htext, ← h.program, hpending, String.append_empty]
  | findings hunit =>
    obtain ⟨source, hnewest, -⟩ := h.exists_newest hunit
    exact ⟨source, hnewest⟩

/-! ### Every step keeps to the protocol -/

/-- What is declared between two states: the text of the declarations is pending, and every new
context is declared. -/
def Adds (e e' : Engine U) (declarations : List Declaration) : Prop :=
  e'.probe.declarations = e.probe.declarations ++ declarations ∧
    e'.probe.text = e.probe.text ∧
    e'.probe.pending = e.probe.pending ++ textOf declarations ∧
    ∀ c, c < e'.contexts.size →
      c < e.contexts.size ∨ ∃ x ∈ declarations, x.Gives (contextName c)

theorem adds_nil (hprobe : e'.probe = e.probe) (hcontexts : e'.contexts = e.contexts) :
    e.Adds e' [] := by
  refine ⟨by rw [hprobe, List.append_nil], by rw [hprobe], ?_, ?_⟩
  · rw [hprobe, textOf, String.append_empty]
  · intro c hc
    rw [hcontexts] at hc
    exact .inl hc

theorem adds_declare (e : Engine U) (x : Declaration) : e.Adds (e.declare x) [x] := by
  have hcontexts : (e.declare x).contexts = e.contexts := rfl
  refine ⟨e.probe.declarations_declare x, e.probe.text_declare x, ?_, ?_⟩
  · rw [textOf_singleton]
    exact e.probe.pending_declare x
  · intro c hc
    rw [hcontexts] at hc
    exact .inl hc

/-- The one new context of a forest is the one that is declared. -/
theorem adds_context {x : Declaration} (hprobe : e'.probe = e.probe.declare x)
    (hsize : e'.contexts.size = e.contexts.size + 1)
    (hx : x.Gives (contextName e.contexts.size)) : e.Adds e' [x] := by
  refine ⟨by rw [hprobe, Probe.declarations_declare], by rw [hprobe, Probe.text_declare], ?_, ?_⟩
  · rw [hprobe, Probe.pending_declare, textOf_singleton]
  · intro c hc
    rw [hsize] at hc
    rcases Nat.lt_succ_iff_lt_or_eq.mp hc with hlt | rfl
    · exact .inl hlt
    · exact .inr ⟨x, List.mem_singleton_self x, hx⟩

theorem Update.adds (h : Update o d e e') : ∃ declarations, e.Adds e' declarations := by
  cases h with
  | declareBinding => exact ⟨_, adds_declare e _⟩
  | @openRoot p type =>
    exact ⟨[.root e.contexts.size type], adds_context rfl (Forest.size_addRoot _ _ _)
      (Declaration.gives_root _ _)⟩
  | @openDirective p q c type =>
    exact ⟨[.directive e.contexts.size type c], adds_context rfl (Forest.size_addChild _ _ _ _)
      (Declaration.gives_directive _ _ _)⟩
  | @openBinding n c b =>
    exact ⟨[.bindingContext e.contexts.size b.id], adds_context rfl (Forest.size_addChild _ _ _ _)
      (Declaration.gives_bindingContext _ _)⟩
  | report | bare | hide | learn | assign | leave | keep => exact ⟨[], adds_nil rfl rfl⟩

theorem Traced.adds (h : e.Traced o opening) (hq : e.Quiet e') {declarations : List Declaration}
    (hadds : e.Adds e' declarations) : e'.Traced o opening := by
  obtain ⟨hdecl, htext, hpending, hcontexts⟩ := hadds
  refine ⟨?_, ?_, ?_, ?_, ?_, ?_, ?_, ?_, ?_, ?_⟩
  · rw [hq.calls]
    exact h.follows
  · rw [hq.calls]
    exact h.answered
  · rw [hq.calls]
    exact h.silent
  · rw [hq.calls, hq.revisions]
    exact h.revisions
  · rw [hq.calls, htext]
    exact h.texts
  · rw [hq.calls, hq.unit]
    exact h.unit
  · rw [hq.calls, htext]
    exact h.newest
  · rw [hq.unit, htext]
    exact h.fresh
  · rw [hdecl, htext, hpending, ← String.append_assoc, h.program, textOf_append,
      String.append_assoc]
  · intro c hc
    rw [hdecl]
    rcases hcontexts c hc with hold | ⟨x, hx, hgives⟩
    · obtain ⟨x, hx, hgives⟩ := h.contexts c hold
      exact ⟨x, List.mem_append_left _ hx, hgives⟩
    · exact ⟨x, List.mem_append_right _ hx, hgives⟩

theorem Traced.update (h : e.Traced o opening) (hu : Update o d e e') :
    e'.Traced o opening := by
  obtain ⟨declarations, hadds⟩ := hu.adds
  exact h.adds hu.quiet hadds

/-- A request that is answered extends the protocol. -/
theorem Traced.append (h : e.Traced o opening) {call : Call U} (hreq : e.Requests call)
    (hok : o.failure? call = none) :
    FollowsProtocol o opening (e.calls ++ [call]) ∧
      ∀ call' ∈ e.calls ++ [call], o.failure? call' = none := by
  refine ⟨h.follows.append h.answered (h.legal hreq), ?_⟩
  intro call' hmem
  rcases List.mem_append.mp hmem with hold | hnew
  · exact h.answered call' hold
  · rw [List.mem_singleton.mp hnew]
    exact hok

theorem Traced.compile (h : e.Traced o opening) {unit : U}
    (hreq : e.Requests (.compile e.probe.commit.1 e.unit))
    (hok : o.compile e.probe.commit.1 e.unit = .ok unit) : (e.compiled unit).Traced o opening := by
  have hnone : o.failure? (.compile e.probe.commit.1 e.unit) = none := by
    rw [Oracle.failure?, hok]
  obtain ⟨hfollows, hanswered⟩ := h.append hreq hnone
  have hcalls : (e.compiled unit).calls = e.calls ++ [.compile e.probe.commit.1 e.unit] := rfl
  have hnewest : ViewLint.newest o (e.compiled unit).calls = some (e.probe.commit.1, unit) := by
    rw [hcalls, newest_append_compile, hok]
    rfl
  have hsources : sources (e.compiled unit).calls = sources e.calls ++ [e.probe.commit.1] := by
    rw [hcalls, sources_append]
    rfl
  refine ⟨hfollows, hanswered, not_findings_append h.silent (fun _ => nofun), ?_, ?_,
    ?_, ?_, ?_, ?_, h.contexts⟩
  · rw [hsources, List.length_append, h.revisions]
    rfl
  · intro s hs
    rw [hsources, List.mem_append, List.mem_singleton] at hs
    rcases hs with hold | rfl
    · obtain ⟨more, hmore⟩ := h.texts s hold
      refine ⟨more ++ e.probe.pending, ?_⟩
      rw [← String.append_assoc, ← hmore]
      rfl
    · exact ⟨"", String.append_empty.symm⟩
  · rw [hnewest]
    rfl
  · intro source unit' heq
    rw [hnewest] at heq
    cases heq
    rfl
  · intro hnone
    cases hnone
  · exact String.append_empty.trans h.program

theorem Traced.inspect (h : e.Traced o opening) {unit : U} {names : List String}
    {shapes : List (String × Shape)} (hreq : e.Requests (.inspect unit names))
    (hok : o.inspect unit names = .ok shapes) :
    (e.asked (.inspect unit names)).Traced o opening := by
  have hnone : o.failure? (.inspect unit names) = none := by
    rw [Oracle.failure?, hok]
  obtain ⟨hfollows, hanswered⟩ := h.append hreq hnone
  have hcalls : (e.asked (.inspect unit names)).calls = e.calls ++ [.inspect unit names] := rfl
  have hsources : sources (e.asked (.inspect unit names)).calls = sources e.calls := by
    rw [hcalls, sources_append]
    exact List.append_nil _
  have hnewest : ViewLint.newest o (e.asked (.inspect unit names)).calls =
      ViewLint.newest o e.calls := by
    rw [hcalls, newest_append_inspect]
  refine ⟨hfollows, hanswered, not_findings_append h.silent (fun _ => nofun), ?_, ?_,
    ?_, ?_, h.fresh, h.program, h.contexts⟩
  · rw [hsources]
    exact h.revisions
  · rw [hsources]
    exact h.texts
  · rw [hnewest]
    exact h.unit
  · rw [hnewest]
    exact h.newest

/-- The opening of a program, which nothing has been committed or declared of. -/
theorem emits_opening (d : Document) (typeLibrary : String) :
    ∃ t, Probe.Emits (Probe.initial d.file typeLibrary) (d.opening typeLibrary) t := by
  obtain ⟨t, ht⟩ := Probe.exists_emits_emitImports (.initial d.file typeLibrary) d.imports
  obtain ⟨t', ht'⟩ := Probe.exists_emits_emitHandlers
    ((Probe.initial d.file typeLibrary).emitImports d.imports) d.importedHandlers.toList
  exact ⟨t ++ t', ht.trans ht'⟩

theorem declarations_opening (d : Document) (typeLibrary : String) :
    (d.opening typeLibrary).declarations = [] := by
  obtain ⟨t, ht⟩ := emits_opening d typeLibrary
  exact ht.declarations

theorem traced_blank (o : Oracle U) (d : Document) (typeLibrary : String) :
    (blank d typeLibrary : Engine U).Traced o (d.opening typeLibrary).pending := by
  obtain ⟨t, ht⟩ := emits_opening d typeLibrary
  have htext : (d.opening typeLibrary).text = "" := ht.text
  have hdecl := declarations_opening d typeLibrary
  refine ⟨?_, ?_, ?_, ?_, ?_, rfl, ?_, fun _ => htext, ?_, ?_⟩
  · intro before call after h
    simp [blank] at h
  · intro call h
    cases h
  · intro unit h
    cases h
  · exact (congrArg Chain.size ht.chain).symm
  · intro s h
    cases h
  · intro source unit h
    cases h
  · unfold blank
    rw [htext, hdecl, textOf, String.empty_append, String.append_empty]
  · intro c hc
    cases hc

/-- Every state of a resolution is traced. -/
theorem Reach.traced (h : Reach o d typeLibrary e) :
    e.Traced o (d.opening typeLibrary).pending := by
  induction h with
  | blank => exact traced_blank o d typeLibrary
  | begin frontier _ ih =>
    exact ⟨ih.follows, ih.answered, ih.silent, ih.revisions, ih.texts, ih.unit, ih.newest,
      ih.fresh, ih.program, ih.contexts⟩
  | update _ hstep ih => exact ih.update hstep
  | declareScope _ _ _ ih => exact ih.adds (quiet_declare _ _) (adds_declare _ _)
  | compile _ hreq hok ih => exact ih.compile hreq hok
  | inspect _ hreq hok ih => exact ih.inspect hreq hok

/-- The requests follow the protocol when one fails, too. -/
theorem Failed.followsProtocol {f : OracleError} (h : Failed o d typeLibrary f e) :
    FollowsProtocol o (d.opening typeLibrary).pending e.calls := by
  obtain ⟨e₀, call, hreach, hreq, -, hcalls⟩ := h
  rw [hcalls]
  exact hreach.traced.follows.append hreach.traced.answered (hreach.traced.legal hreq)

/-- Text is pending as long as nothing has been compiled. -/
theorem Reach.unit_isSome (h : Reach o d typeLibrary e) (hpending : e.probe.pending = "") :
    ∃ unit, e.unit = some unit := by
  cases hunit : e.unit with
  | some unit => exact ⟨unit, rfl⟩
  | none =>
    -- the whole program is empty, and yet it begins with the scaffold
    have hprogram := h.traced.program
    rw [h.traced.fresh hunit, hpending] at hprogram
    obtain ⟨t, ht⟩ := emits_opening d typeLibrary
    rw [ht.pending, String.append_assoc] at hprogram
    have hscaffold := (String.append_eq_empty_iff.mp hprogram.symm).1
    exact absurd hscaffold (Probe.scaffold_ne_empty typeLibrary)

end Engine

end ViewLint
