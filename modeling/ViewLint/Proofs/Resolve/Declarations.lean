import Mathlib.Data.List.Flatten
import ViewLint.Proofs.Resolve.Protocol
import ViewLint.Proofs.Resolve.Scoping

/-!
# Names are declared once, and before they are used

The declarations of a program give names to contexts, to what is in scope in them, and to the
values of bindings, and they refer to names that others give.  Whatever the type checker answers,
no name is given twice, and none is referred to before it has been given.

## Main definitions

* `Declaration.names`, `Declaration.refs` — the names that a declaration gives and refers to.
* `Declaration.Introduces`, `Declaration.Mentions` — how these names stand in its text.
* `WellScoped` — every name is given once, and before it is used.
* `Engine.Listed` — the program is well-scoped, and has just the contexts and the bindings that
  have been fixed.

## Main results

* `WellScoped.concat` — one more declaration, with new names for itself and old ones behind.
* `Engine.Update.listed`, `Engine.Reach.listed` — every state of a resolution is listed.
-/

namespace ViewLint

namespace Declaration

/-- The names that a declaration gives. -/
def names : Declaration → List String
  | .root context _ => [contextName context]
  | .directive context _ _ => [contextName context]
  | .bindingContext context _ => [contextName context]
  | .scope context => [scopeName context]
  | .transformation binding _ _ => [transformationName binding.id, bindingName binding.id]

/-- The names that a declaration takes from others. -/
def refs : Declaration → List String
  | .root _ _ => []
  | .directive _ _ parent => [contextName parent]
  | .bindingContext _ binding => [bindingName binding]
  | .scope context => [contextName context]
  | .transformation _ context _ => [contextName context]

/-- The context that a declaration opens. -/
def context? : Declaration → Option ContextId
  | .root context _ => some context
  | .directive context _ _ => some context
  | .bindingContext context _ => some context
  | .scope _ => none
  | .transformation _ _ _ => none

/-- The binding whose value a declaration gives. -/
def binding? : Declaration → Option BindingId
  | .transformation binding _ _ => some binding.id
  | _ => none

/-- A line of the declaration begins with the name, behind the keyword of a constant or of a
function. -/
def Introduces (x : Declaration) (name : String) : Prop :=
  x.Gives name ∨ ∃ rest, x.text = "function " ++ (name ++ rest) ∧ rest.toList.head? = some '('

/-- The name stands in the declaration as a word of its own. -/
def Mentions (x : Declaration) (name : String) : Prop :=
  ∃ before after l r, x.text = before ++ (name ++ after) ∧
    before.toList.getLast? = some l ∧ Text.isNamePart l = false ∧
    after.toList.head? = some r ∧ Text.isNamePart r = false

end Declaration

/-- The names that some declarations give. -/
def namesOf (cs : List Declaration) : List String := cs.flatMap (·.names)

/-- Every name is given once, and a declaration refers to names that stand before it. -/
structure WellScoped (cs : List Declaration) : Prop where
  nodup : (namesOf cs).Nodup
  ordered : ∀ before c after, cs = before ++ c :: after → ∀ name ∈ c.refs, name ∈ namesOf before

/-! ### The names in a program -/

theorem transformationName_injective {b b' : BindingId}
    (h : transformationName b = transformationName b') : b = b' :=
  bindingName_injective ((String.append_right_inj _).mp h)

theorem head?_ofList_append (c : Char) (cs : List Char) (s : String) :
    (String.ofList (c :: cs) ++ s).toList.head? = some c := by
  rw [String.toList_append, String.toList_ofList]
  rfl

theorem head?_contextName (c : ContextId) : (contextName c).toList.head? = some 'c' :=
  head?_ofList_append _ _ _

theorem head?_bindingName (b : BindingId) : (bindingName b).toList.head? = some 'b' :=
  head?_ofList_append _ _ _

theorem head?_scopeName (c : ContextId) : (scopeName c).toList.head? = some 's' :=
  head?_ofList_append _ _ _

theorem head?_transformationName (b : BindingId) :
    (transformationName b).toList.head? = some 't' :=
  head?_ofList_append _ _ _

/-- Names of different kinds begin with different letters. -/
theorem ne_of_head? {s t : String} {c c' : Char} (hs : s.toList.head? = some c)
    (ht : t.toList.head? = some c') (hne : c ≠ c') : s ≠ t := by
  rintro rfl
  exact hne (Option.some.inj (hs.symm.trans ht))

theorem bindingName_ne_contextName (b : BindingId) (c : ContextId) :
    bindingName b ≠ contextName c :=
  ne_of_head? (head?_bindingName b) (head?_contextName c) (by decide)

theorem transformationName_ne_contextName (b : BindingId) (c : ContextId) :
    transformationName b ≠ contextName c :=
  ne_of_head? (head?_transformationName b) (head?_contextName c) (by decide)

theorem transformationName_ne_scopeName (b : BindingId) (c : ContextId) :
    transformationName b ≠ scopeName c :=
  ne_of_head? (head?_transformationName b) (head?_scopeName c) (by decide)

theorem transformationName_ne_bindingName (b b' : BindingId) :
    transformationName b ≠ bindingName b' :=
  ne_of_head? (head?_transformationName b) (head?_bindingName b') (by decide)

theorem Declaration.exists_text_transformation (b : Binding) (context : ContextId)
    (members : List String) :
    ∃ rest, (Declaration.transformation b context members).text =
      "function " ++ (transformationName b.id ++ ("($context: typeof " ++
        (contextName context ++ (") \x7b\n" ++ rest)))) := by
  have hassoc : ∀ a n p c t u : String,
      a ++ n ++ p ++ c ++ t ++ u = a ++ (n ++ (p ++ (c ++ (t ++ u)))) := by
    intro a n p c t u
    simp only [String.append_assoc]
  unfold Declaration.text transformationText
  dsimp only
  -- all that stands behind the first line is one text
  rw [String.append_assoc, String.append_assoc, String.append_assoc, String.append_assoc,
    String.append_assoc, String.append_assoc]
  exact ⟨_, hassoc _ _ _ _ _ _⟩

/-- The names of a declaration stand where its text gives names. -/
theorem Declaration.introduces_of_mem_names {x : Declaration} {name : String}
    (h : name ∈ x.names) : x.Introduces name := by
  cases x with
  | root context type =>
    rw [List.mem_singleton.mp h]
    exact .inl (gives_root context type)
  | directive context type parent =>
    rw [List.mem_singleton.mp h]
    exact .inl (gives_directive context type parent)
  | bindingContext context binding =>
    rw [List.mem_singleton.mp h]
    exact .inl (gives_bindingContext context binding)
  | scope context =>
    rw [List.mem_singleton.mp h]
    exact .inl (gives_scope context)
  | transformation binding context members =>
    rcases List.mem_cons.mp h with rfl | h
    · obtain ⟨rest, hrest⟩ := exists_text_transformation binding context members
      exact .inr ⟨_, hrest, head?_ofList_append _ _ _⟩
    · rw [List.mem_singleton.mp h]
      exact .inl (gives_transformation binding context members)

theorem Declaration.mentions_of_text {x : Declaration} {name before mark after : String}
    {l r : Char} {rs : List Char}
    (htext : x.text = before ++ (mark ++ (name ++ (String.ofList (r :: rs) ++ after))))
    (hl : mark.toList.getLast? = some l) (hmark : Text.isNamePart l = false)
    (hr : Text.isNamePart r = false) : x.Mentions name := by
  refine ⟨before ++ mark, String.ofList (r :: rs) ++ after, l, r, ?_, ?_, hmark, ?_, hr⟩
  · rw [htext, String.append_assoc]
  · exact getLast?_append_of_getLast? hl
  · exact head?_ofList_append r rs after

/-- What a declaration refers to stands in its text. -/
theorem Declaration.mentions_of_mem_refs {x : Declaration} {name : String}
    (h : name ∈ x.refs) : x.Mentions name := by
  cases x with
  | root context type => cases h
  | directive context type parent =>
    have htext : (Declaration.directive context type parent).text =
        ("const " ++ (contextName context ++ (": ChildBindingContext<" ++ type.text))) ++
          (", typeof " ++ (contextName parent ++ ("> = (undefined as any)\n" ++ ""))) := by
      simp only [text, constantText, String.append_assoc, String.append_empty]
    rw [List.mem_singleton.mp h]
    exact mentions_of_text htext rfl (by decide) (by decide)
  | bindingContext context binding =>
    have htext : (Declaration.bindingContext context binding).text =
        ("const " ++ contextName context) ++ (" = " ++ (bindingName binding ++ ("\n" ++ ""))) := by
      simp only [text, constantText, String.append_assoc, String.append_empty]
    rw [List.mem_singleton.mp h]
    exact mentions_of_text htext rfl (by decide) (by decide)
  | scope context =>
    have htext : (Declaration.scope context).text =
        ("const " ++ scopeName context) ++ (" = \x7b ..." ++ (contextName context ++
          (", ..." ++ (contextName context ++ ".$data \x7d\n")))) := by
      simp only [text, constantText, String.append_assoc]
    rw [List.mem_singleton.mp h]
    exact mentions_of_text htext rfl (by decide) (by decide)
  | transformation binding context members =>
    obtain ⟨rest, hrest⟩ := exists_text_transformation binding context members
    have htext : (Declaration.transformation binding context members).text =
        ("function " ++ transformationName binding.id) ++
          ("($context: typeof " ++ (contextName context ++ (") \x7b\n" ++ rest))) := by
      rw [hrest]
      simp only [String.append_assoc]
    rw [List.mem_singleton.mp h]
    exact mentions_of_text htext rfl (by decide) (by decide)

variable {cs : List Declaration}

theorem contextName_mem_names {x : Declaration} {c : ContextId} :
    contextName c ∈ x.names ↔ x.context? = some c := by
  have hinj : ∀ c', contextName c = contextName c' ↔ c' = c :=
    fun c' => ⟨fun h => (contextName_injective h).symm, fun h => h ▸ rfl⟩
  cases x <;>
    simp [Declaration.names, Declaration.context?, hinj, (scopeName_ne_contextName _ c).symm,
      (transformationName_ne_contextName _ c).symm, (bindingName_ne_contextName _ c).symm]

theorem contextName_mem_namesOf {c : ContextId} :
    contextName c ∈ namesOf cs ↔ c ∈ cs.filterMap (·.context?) := by
  simp only [namesOf, List.mem_flatMap, List.mem_filterMap, contextName_mem_names]

theorem scopeName_mem_names {x : Declaration} {c : ContextId} :
    scopeName c ∈ x.names ↔ x = .scope c := by
  have hinj : ∀ c', scopeName c = scopeName c' ↔ c' = c :=
    fun c' => ⟨fun h => (scopeName_injective h).symm, fun h => h ▸ rfl⟩
  cases x <;>
    simp [Declaration.names, hinj, scopeName_ne_contextName, scopeName_ne_bindingName,
      (transformationName_ne_scopeName _ c).symm]

theorem scopeName_mem_namesOf {c : ContextId} : scopeName c ∈ namesOf cs ↔ .scope c ∈ cs := by
  simp [namesOf, scopeName_mem_names]

theorem bindingName_mem_names {x : Declaration} {b : BindingId} :
    bindingName b ∈ x.names ↔ x.binding? = some b := by
  have hinj : ∀ b', bindingName b = bindingName b' ↔ b' = b :=
    fun b' => ⟨fun h => (bindingName_injective h).symm, fun h => h ▸ rfl⟩
  cases x <;>
    simp [Declaration.names, Declaration.binding?, hinj, bindingName_ne_contextName,
      (scopeName_ne_bindingName _ b).symm, (transformationName_ne_bindingName _ b).symm]

theorem bindingName_mem_namesOf {b : BindingId} :
    bindingName b ∈ namesOf cs ↔ ∃ x ∈ cs, x.binding? = some b := by
  simp only [namesOf, List.mem_flatMap, bindingName_mem_names]

theorem transformationName_mem_namesOf {b : BindingId} :
    transformationName b ∈ namesOf cs ↔ ∃ x ∈ cs, x.binding? = some b := by
  have hinj : ∀ b', transformationName b = transformationName b' ↔ b' = b :=
    fun b' => ⟨fun h => (transformationName_injective h).symm, fun h => h ▸ rfl⟩
  have hnames : ∀ x : Declaration, transformationName b ∈ x.names ↔ x.binding? = some b := by
    intro x
    cases x <;>
      simp [Declaration.names, Declaration.binding?, hinj, transformationName_ne_contextName,
        transformationName_ne_scopeName, transformationName_ne_bindingName]
  simp only [namesOf, List.mem_flatMap, hnames]

theorem binding?_eq_some {x : Declaration} {b : BindingId} :
    x.binding? = some b ↔ ∃ binding c members,
      x = .transformation binding c members ∧ binding.id = b := by
  cases x <;> simp [Declaration.binding?]

/-! ### One more declaration -/

theorem wellScoped_nil : WellScoped [] :=
  ⟨List.nodup_nil, fun before c after h => by simp at h⟩

/-- A program stays well-scoped with a declaration that gives new names and refers to old ones. -/
theorem WellScoped.concat (h : WellScoped cs) {x : Declaration} (hnodup : x.names.Nodup)
    (hnew : ∀ name ∈ x.names, name ∉ namesOf cs) (hold : ∀ name ∈ x.refs, name ∈ namesOf cs) :
    WellScoped (cs ++ [x]) := by
  refine ⟨?_, ?_⟩
  · rw [namesOf, List.flatMap_append, List.flatMap_singleton]
    refine List.nodup_append.mpr ⟨h.nodup, hnodup, ?_⟩
    rintro name hname _ hx rfl
    exact hnew name hx hname
  · intro before c after heq
    rcases append_singleton_eq_append_cons heq with ⟨rfl, rfl, -⟩ | ⟨after', -, hcs⟩
    · exact hold
    · exact h.ordered before c after' hcs

theorem names_nodup (x : Declaration) : x.names.Nodup := by
  cases x <;> simp [Declaration.names, transformationName_ne_bindingName]

/-- The declaration of a binding's value is the only one. -/
theorem WellScoped.filter_binding? (h : WellScoped cs) {x : Declaration} {b : BindingId}
    (hx : x ∈ cs) (hb : x.binding? = some b) : cs.filter (·.binding? = some b) = [x] := by
  have hmem : x ∈ cs.filter (·.binding? = some b) := List.mem_filter.mpr ⟨hx, by simpa using hb⟩
  -- a second one would give the same name again
  have hsub : (namesOf (cs.filter (·.binding? = some b))).Nodup :=
    h.nodup.sublist (List.Sublist.flatMap List.filter_sublist _)
  have hname : ∀ y ∈ cs.filter (·.binding? = some b), bindingName b ∈ y.names := by
    intro y hy
    exact bindingName_mem_names.mpr (by simpa using (List.mem_filter.mp hy).2)
  cases hlist : cs.filter (·.binding? = some b) with
  | nil =>
    rw [hlist] at hmem
    cases hmem
  | cons y rest =>
    rw [hlist] at hmem hsub hname
    have hrest : rest = [] := by
      cases rest with
      | nil => rfl
      | cons z rest =>
        rw [namesOf, List.flatMap_cons, List.flatMap_cons, List.nodup_append] at hsub
        have hy := hname y (List.mem_cons_self ..)
        have hz := hname z (List.mem_cons_of_mem _ (List.mem_cons_self ..))
        exact absurd rfl (hsub.2.2 _ hy _ (List.mem_append_left _ hz))
    rw [hrest] at hmem ⊢
    rw [List.mem_singleton.mp hmem]

/-! ### Every step is listed -/

namespace Engine

variable {U : Type} {o : Oracle U} {d : Document} {typeLibrary : String} {e e' : Engine U}

/-- The program is well-scoped.  It declares just the contexts of the view, the values of bindings
where their elements are assigned a known scope, and those of every element that hands a context
to its content. -/
structure Listed (d : Document) (e : Engine U) : Prop where
  wellScoped : WellScoped e.probe.declarations
  contexts : e.probe.declarations.filterMap (·.context?) = List.range e.contexts.size
  evaluated : ∀ b c members, .transformation b c members ∈ e.probe.declarations →
    d.bindings[b.id]? = some b ∧ ∃ n type, b.id ∈ d.bindingsOf n ∧
      e.assignments.get? n = some (.context c) ∧ e.scopes.get? c = some (.known type members)
  handed : ∀ n c, e.outgoing.get? n = some (.context c) → e.Evaluated d n

theorem Evaluated.mono {n : NodeId} (h : e.Evaluated d n)
    (hsub : e.probe.declarations ⊆ e'.probe.declarations) : e'.Evaluated d n := by
  intro k hk
  obtain ⟨b, c, members, hmem, hid⟩ := h k hk
  exact ⟨b, c, members, hsub hmem, hid⟩

/-- The contexts of the view have their names. -/
theorem Listed.contextName_mem (h : e.Listed d) {c : ContextId} :
    contextName c ∈ namesOf e.probe.declarations ↔ c < e.contexts.size := by
  rw [contextName_mem_namesOf, h.contexts, List.mem_range]

/-- A state is listed if the one before is, and all that is new is declared as it should be. -/
theorem Listed.grow (h : e.Listed d) (hg : e.Grows e') (cs : List Declaration)
    (hdecl : e'.probe.declarations = e.probe.declarations ++ cs)
    (hscoped : WellScoped (e.probe.declarations ++ cs))
    (hcontexts : List.range e.contexts.size ++ cs.filterMap (·.context?) =
      List.range e'.contexts.size)
    (hevaluated : ∀ b c members, .transformation b c members ∈ cs →
      d.bindings[b.id]? = some b ∧ ∃ n type, b.id ∈ d.bindingsOf n ∧
        e'.assignments.get? n = some (.context c) ∧ e'.scopes.get? c = some (.known type members))
    (hhanded : ∀ n c, e'.outgoing.get? n = some (.context c) →
      e.Evaluated d n ∨ e.outgoing.get? n = some (.context c)) : e'.Listed d := by
  have hsub : e.probe.declarations ⊆ e'.probe.declarations := by
    rw [hdecl]
    exact List.subset_append_left _ _
  refine ⟨hdecl ▸ hscoped, ?_, ?_, ?_⟩
  · rw [hdecl, List.filterMap_append, h.contexts, hcontexts]
  · intro b c members hmem
    rw [hdecl] at hmem
    rcases List.mem_append.mp hmem with hold | hnew
    · obtain ⟨hb, n, type, hn, hassign, hscope⟩ := h.evaluated b c members hold
      exact ⟨hb, n, type, hn, hg.assignments _ _ hassign, hg.scopes _ _ hscope⟩
    · exact hevaluated b c members hnew
  · intro n c hn
    rcases hhanded n c hn with hnew | hold
    · exact hnew.mono hsub
    · exact (h.handed n c hold).mono hsub

/-- Nothing is declared. -/
theorem Listed.keep (h : e.Listed d) (hg : e.Grows e') (hprobe : e'.probe = e.probe)
    (hcontexts : e'.contexts = e.contexts)
    (hhanded : ∀ n c, e'.outgoing.get? n = some (.context c) →
      e.Evaluated d n ∨ e.outgoing.get? n = some (.context c)) : e'.Listed d := by
  refine h.grow hg [] ?_ ?_ ?_ ?_ hhanded
  · rw [hprobe, List.append_nil]
  · rw [List.append_nil]
    exact h.wellScoped
  · rw [hcontexts]
    exact List.append_nil _
  · intro b c members hmem
    cases hmem

/-- A context is declared under the next number. -/
theorem Listed.addContext (h : e.Listed d) (hg : e.Grows e') (x : Declaration)
    (hprobe : e'.probe = e.probe.declare x) (hsize : e'.contexts.size = e.contexts.size + 1)
    (hx : x.context? = some e.contexts.size) (hnames : x.names = [contextName e.contexts.size])
    (hrefs : ∀ name ∈ x.refs, name ∈ namesOf e.probe.declarations)
    (hhanded : ∀ n c, e'.outgoing.get? n = some (.context c) →
      e.Evaluated d n ∨ e.outgoing.get? n = some (.context c)) : e'.Listed d := by
  refine h.grow hg [x] ?_ ?_ ?_ ?_ hhanded
  · rw [hprobe, Probe.declarations_declare]
  · refine h.wellScoped.concat (names_nodup x) ?_ hrefs
    intro name hname
    rw [hnames] at hname
    rw [List.mem_singleton.mp hname, h.contextName_mem]
    exact Nat.lt_irrefl _
  · rw [hsize, List.range_succ, List.filterMap_cons, hx]
    rfl
  · intro b c members hmem
    rw [← List.mem_singleton.mp hmem] at hx
    cases hx

/-- A value is declared in the contexts that are there. -/
theorem Listed.declare (h : e.Listed d) {x : Declaration} (hx : x.context? = none)
    (hnew : ∀ name ∈ x.names, name ∉ namesOf e.probe.declarations)
    (hrefs : ∀ name ∈ x.refs, name ∈ namesOf e.probe.declarations)
    (hevaluated : ∀ b c members, x = .transformation b c members →
      d.bindings[b.id]? = some b ∧ ∃ n type, b.id ∈ d.bindingsOf n ∧
        e.assignments.get? n = some (.context c) ∧ e.scopes.get? c = some (.known type members)) :
    (e.declare x).Listed d := by
  refine h.grow (grows_declare e x) [x] (e.probe.declarations_declare x)
    (h.wellScoped.concat (names_nodup x) hnew hrefs) ?_ ?_ fun _ _ hn => .inr hn
  · change _ = List.range e.contexts.size
    rw [List.filterMap_cons, hx]
    exact List.append_nil _
  · intro b c members hmem
    exact hevaluated b c members (List.mem_singleton.mp hmem).symm

theorem scopeOf?_known {c : ContextId} {members : List String}
    (h : e.scopeOf? (.context c) = some (c, members)) :
    ∃ type, e.scopes.get? c = some (.known type members) := by
  unfold scopeOf? at h
  dsimp only at h
  split at h
  · next type members' hs =>
    cases h
    exact ⟨type, hs⟩
  · cases h

/-- Every update keeps a state listed. -/
theorem Update.listed (h : Update o d e e') (hs : e.Scoped o d) (hl : e.Listed d) :
    e'.Listed d := by
  have hg := h.grows
  cases h with
  | report => exact hl.keep hg rfl rfl fun _ _ hn => .inr hn
  | bare => exact hl.keep hg rfl rfl fun _ _ hn => .inr hn
  | hide => exact hl.keep hg rfl rfl fun _ _ hn => .inr hn
  | learn => exact hl.keep hg rfl rfl fun _ _ hn => .inr hn
  | assign => exact hl.keep hg rfl rfl fun _ _ hn => .inr hn
  | leave =>
    refine hl.keep hg rfl rfl ?_
    intro m c hm
    rcases Table.of_get?_insert hm with ⟨-, hc⟩ | hold
    · cases hc
    · exact .inr hold
  | keep _ _ _ heval =>
    refine hl.keep hg rfl rfl ?_
    intro m c hm
    rcases Table.of_get?_insert hm with ⟨rfl, -⟩ | hold
    · exact .inl heval
    · exact .inr hold
  | @openRoot p type =>
    refine hl.addContext hg (.root e.contexts.size type) rfl (Forest.size_addRoot _ _ _) rfl rfl
      ?_ fun _ _ hn => .inr hn
    intro name hname
    cases hname
  | @openDirective p q c type _ _ _ hin =>
    refine hl.addContext hg (.directive e.contexts.size type c) rfl (Forest.size_addChild _ _ _ _)
      rfl rfl ?_ fun _ _ hn => .inr hn
    intro name hname
    rw [List.mem_singleton.mp hname, hl.contextName_mem]
    exact hs.lt_size_of_surrounds (hs.surrounds_of_inside? hin)
  | @openBinding n c b type _ _ _ heval hb =>
    refine hl.addContext hg (.bindingContext e.contexts.size b.id) rfl
      (Forest.size_addChild _ _ _ _) rfl rfl ?_ ?_
    · intro name hname
      obtain ⟨x, c, members, hmem, hid⟩ := heval _ hb
      rw [List.mem_singleton.mp hname, bindingName_mem_namesOf]
      exact ⟨_, hmem, congrArg some hid⟩
    · intro m c hm
      rcases Table.of_get?_insert hm with ⟨rfl, -⟩ | hold
      · exact .inl heval
      · exact .inr hold
  | @declareBinding n b c members hget hb hassign hscope hfresh =>
    have hnew : ¬∃ x ∈ e.probe.declarations, x.binding? = some b.id := by
      rintro ⟨x, hx, hid⟩
      obtain ⟨y, c', members', rfl, hy⟩ := binding?_eq_some.mp hid
      exact hfresh y c' members' hx hy
    obtain ⟨type, htype⟩ := scopeOf?_known hscope
    refine hl.declare rfl ?_ ?_ ?_
    · intro name hname
      rcases List.mem_cons.mp hname with rfl | hname
      · rwa [transformationName_mem_namesOf]
      · rwa [List.mem_singleton.mp hname, bindingName_mem_namesOf]
    · intro name hname
      obtain ⟨-, ⟨p, -, hsur⟩, -⟩ := hs.assigned n _ hassign
      rw [List.mem_singleton.mp hname, hl.contextName_mem]
      exact hs.lt_size_of_surrounds hsur
    · intro x c' members' hx
      cases hx
      exact ⟨hget, n, type, hb, hassign, htype⟩

/-- No update declares a scope. -/
theorem Update.scope_mem (h : Update o d e e') {c : ContextId} :
    .scope c ∈ e'.probe.declarations ↔ .scope c ∈ e.probe.declarations := by
  have hdeclare : ∀ x : Declaration, x ≠ .scope c →
      (.scope c ∈ (e.probe.declare x).declarations ↔ .scope c ∈ e.probe.declarations) := by
    intro x hx
    rw [Probe.declarations_declare, List.mem_append, List.mem_singleton]
    exact or_iff_left hx.symm
  cases h with
  | declareBinding => exact hdeclare _ (fun hx => nomatch hx)
  | openRoot => exact hdeclare _ (fun hx => nomatch hx)
  | openDirective => exact hdeclare _ (fun hx => nomatch hx)
  | openBinding => exact hdeclare _ (fun hx => nomatch hx)
  | report | bare | hide | learn | assign | leave | keep => exact Iff.rfl

theorem Updates.scope_mem (h : Updates o d e e') {c : ContextId} :
    .scope c ∈ e'.probe.declarations ↔ .scope c ∈ e.probe.declarations := by
  induction h with
  | refl => exact Iff.rfl
  | tail _ hstep ih => exact hstep.scope_mem.trans ih

theorem Listed.declareScope (h : e.Listed d) {c : ContextId} (hc : c < e.contexts.size)
    (hnew : .scope c ∉ e.probe.declarations) : (e.declare (.scope c)).Listed d := by
  refine h.declare rfl ?_ ?_ ?_
  · intro name hname
    rwa [List.mem_singleton.mp hname, scopeName_mem_namesOf]
  · intro name hname
    rwa [List.mem_singleton.mp hname, h.contextName_mem]
  · intro b c' members hx
    cases hx

/-- Every state of a resolution is listed. -/
theorem Reach.listed (h : Reach o d typeLibrary e) : e.Listed d := by
  induction h with
  | blank =>
    have hdecl := declarations_opening d typeLibrary
    refine ⟨?_, ?_, ?_, ?_⟩
    · change WellScoped (d.opening typeLibrary).declarations
      rw [hdecl]
      exact wellScoped_nil
    · change (d.opening typeLibrary).declarations.filterMap _ = _
      rw [hdecl]
      rfl
    · intro b c members hmem
      change _ ∈ (d.opening typeLibrary).declarations at hmem
      rw [hdecl] at hmem
      cases hmem
    · intro n c hn
      cases hn
  | begin frontier _ ih => exact ⟨ih.wellScoped, ih.contexts, ih.evaluated, ih.handed⟩
  | update hreach hstep ih => exact hstep.listed hreach.scoped ih
  | declareScope _ hc hnew ih => exact ih.declareScope hc hnew
  | compile _ _ _ ih => exact ⟨ih.wellScoped, ih.contexts, ih.evaluated, ih.handed⟩
  | inspect _ _ _ ih => exact ⟨ih.wellScoped, ih.contexts, ih.evaluated, ih.handed⟩

end Engine

end ViewLint
