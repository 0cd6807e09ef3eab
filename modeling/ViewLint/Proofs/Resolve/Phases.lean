import Mathlib.Data.List.Induction
import Mathlib.Data.List.Nodup
import ViewLint.Proofs.Resolve.Declarations

/-!
# The phases of a round

A round looks which elements are ready, declares and learns the scopes of their contexts,
assigns the elements, and settles what they hand to their content.  Every phase is a number of
updates, and this module says which elements it is about.

## Main definitions

* `Engine.Looks` — a look at a node, and what it shows.
* `Engine.ReadyIn` — an element that can be assigned.
* `Engine.Declaring` — only the program changes, by given declarations.

## Main results

* `Engine.looks_outgoingOf`, `Engine.finds_ready` — what is known inside a node, and which
  elements are ready, by their levels.
* `Engine.evaluates` — the assignment of ready elements.
* `Engine.updates_settle` — what evaluated elements hand to their content.
-/

namespace ViewLint.Engine

variable {U : Type} {o : Oracle U} {d : Document} {typeLibrary : String} {e e' e'' : Engine U}

theorem Updates.scoped (h : Updates o d e e') (hs : e.Scoped o d) : e'.Scoped o d := by
  induction h with
  | refl => exact hs
  | tail _ hstep ih => exact hstep.scoped ih

/-! ### Looking at nodes -/

/-- A look at a node.  It may open contexts of nodes up to that one, and shows what is then
inside; something is shown as soon as all elements up to the level of the node have handed
something on. -/
structure Looks (o : Oracle U) (d : Document) (e : Engine U) (p : NodeId)
    (r : Option Assignment × Engine U) : Prop where
  updates : Updates o d e r.2
  assignments : r.2.assignments = e.assignments
  outgoing : r.2.outgoing = e.outgoing
  later : ∀ k : Nat, p < k → r.2.typeContexts.get? k = e.typeContexts.get? k
  answer : r.1 = r.2.inside? d p
  known : (∀ n, (d.bindingNode? n).isSome → d.level n ≤ d.level p → (e.outgoing.get? n).isSome) →
    r.1.isSome

/-- A look at what is fixed changes nothing. -/
theorem looks_self {p : NodeId} {a : Option Assignment} (ha : a = e.inside? d p)
    (hknown : (∀ n, (d.bindingNode? n).isSome → d.level n ≤ d.level p →
      (e.outgoing.get? n).isSome) → a.isSome) : Looks o d e p (a, e) :=
  ⟨.refl, rfl, rfl, fun _ _ => rfl, ha, hknown⟩

/-- A look that fixes what is inside the node, after contexts of nodes before it have been
opened. -/
theorem looks_fix {p : Nat} {b : Assignment} {content : TypeNode}
    (hk : d.kind? p = some (.type content)) (hus : Updates o d e e')
    (hassign : e''.assignments = e.assignments) (hout : e''.outgoing = e.outgoing)
    (hlater : ∀ k : Nat, p ≤ k → e'.typeContexts.get? k = e.typeContexts.get? k)
    (hu : Update o d e' e'') (htype : e''.typeContexts = e'.typeContexts.insert p b) :
    Looks o d e p (some b, e'') where
  updates := hus.tail hu
  assignments := hassign
  outgoing := hout
  later k hk := by
    dsimp only
    rw [htype, Table.get?_insert_of_ne (Nat.ne_of_gt hk)]
    exact hlater k (Nat.le_of_lt hk)
  answer := by
    dsimp only
    rw [inside?_type _ hk, htype, Table.get?_insert_self]
  known _ := rfl

theorem looks_outgoingFrom (hd : d.IsTree) {fuel p : Nat} (hp : p < d.nodes.size) (hf : p < fuel)
    (hroot : (e.typeContexts.get? Document.root).isSome) :
    Looks o d e p (outgoingFrom d fuel p e) := by
  -- the recursion goes from a directive to its parent, whose number is smaller
  induction fuel generalizing p with
  | zero => exact absurd hf (Nat.not_lt_zero p)
  | succ fuel ih =>
    obtain ⟨n, hn⟩ := Document.exists_node hp
    have hkind : d.kind? p = some n.kind := by rw [Document.kind?, hn, Option.map_some]
    have hparent : d.parent? p = n.parent := by rw [Document.parent?, hn, Option.bind_some]
    rw [outgoingFrom, hn]
    dsimp only
    cases hk : n.kind with
    | binding content =>
      rw [hk] at hkind
      refine looks_self (inside?_binding e hkind).symm fun hknown => hknown p ?_ (Nat.le_refl _)
      rw [Document.bindingNode?_eq_some.mpr hkind, Option.isSome_some]
    | type content =>
      rw [hk] at hkind
      dsimp only
      cases ht : e.typeContexts.get? p with
      | some a => exact looks_self ((inside?_type e hkind).trans ht).symm fun _ => rfl
      | none =>
        -- what is inside the root is known from the beginning
        have hne : p ≠ Document.root := by
          rintro rfl
          rw [ht] at hroot
          cases hroot
        have htyped := hd.typed p content hkind hne
        obtain ⟨type?, isRoot, location⟩ := content
        cases type? with
        | none => cases htyped
        | some type =>
          cases isRoot with
          | true => exact looks_fix hkind .refl rfl rfl (fun _ _ => rfl) (.openRoot hkind ht) rfl
          | false =>
            -- a directive is inside what surrounds it, if that is known
            obtain ⟨q, hq, hlt⟩ := hd.parent_lt p hp hne
            have hlook := ih (Nat.lt_trans hlt hp) (Nat.lt_of_lt_of_le hlt (Nat.le_of_lt_succ hf))
            rw [← hparent, hq]
            dsimp only [Bool.false_eq_true, ↓reduceIte]
            generalize outgoingFrom d fuel q e = r at hlook ⊢
            obtain ⟨answer, e₁⟩ := r
            have hlater : ∀ k : Nat, p ≤ k → e₁.typeContexts.get? k = e.typeContexts.get? k :=
              fun k hk => hlook.later k (Nat.lt_of_lt_of_le hlt hk)
            have hnew : e₁.typeContexts.get? p = none := (hlater p (Nat.le_refl p)).trans ht
            have hinside := hlook.answer
            dsimp only at hinside
            cases answer with
            | none =>
              refine ⟨hlook.updates, hlook.assignments, hlook.outgoing,
                fun k hk => hlater k (Nat.le_of_lt hk), ?_, ?_⟩
              · exact ((inside?_type e₁ hkind).trans hnew).symm
              · intro hknown
                rw [hd.level_directive hkind rfl hq] at hknown
                exact hlook.known hknown
            | some a =>
              cases a with
              | unknown =>
                exact looks_fix hkind hlook.updates hlook.assignments hlook.outgoing hlater
                  (.hide hkind hq hinside.symm hnew) rfl
              | context c =>
                exact looks_fix hkind hlook.updates hlook.assignments hlook.outgoing hlater
                  (.openDirective hkind hq hinside.symm hnew) rfl

theorem looks_outgoingOf (hd : d.IsTree) {p : Nat} (hp : p < d.nodes.size)
    (hroot : (e.typeContexts.get? Document.root).isSome) : Looks o d e p (e.outgoingOf d p) :=
  looks_outgoingFrom hd hp hp hroot

/-! ### Ready elements -/

/-- The elements up to a level have handed something to their content, and no others. -/
def HandedUpTo (d : Document) (e : Engine U) (i : Nat) : Prop :=
  ∀ n, (e.outgoing.get? n).isSome ↔ (d.bindingNode? n).isSome ∧ d.level n ≤ i

/-- A look at a node shows something if and only if its level has been reached. -/
theorem Looks.isSome_iff (hd : d.IsTree) {i : Nat} (hs : e.Scoped o d) (hi : e.HandedUpTo d i)
    {p : NodeId} {r : Option Assignment × Engine U} (h : Looks o d e p r) :
    r.1.isSome ↔ d.level p ≤ i := by
  constructor
  · intro hsome
    obtain ⟨a, ha⟩ := Option.isSome_iff_exists.mp hsome
    have hinside := h.answer.symm.trans ha
    refine ((h.updates.scoped hs).surrounds_of_inside? hinside).level_le hd ?_
    intro n hn
    rw [h.outgoing] at hn
    exact ((hi n).mp hn).2
  · intro hle
    exact h.known fun n hn hlevel => (hi n).mpr ⟨hn, Nat.le_trans hlevel hle⟩

/-- The search for ready elements: it opens contexts on the way, and finds elements together
with what their parents hand to them. -/
structure Finds (o : Oracle U) (d : Document) (e : Engine U)
    (r : List (NodeId × Assignment) × Engine U) : Prop where
  updates : Updates o d e r.2
  assignments : r.2.assignments = e.assignments
  outgoing : r.2.outgoing = e.outgoing
  inside : ∀ n a, (n, a) ∈ r.1 → ∃ p, d.parent? n = some p ∧ r.2.inside? d p = some a

theorem Finds.after {p : NodeId} {answer : Option Assignment}
    {r : List (NodeId × Assignment) × Engine U} (h : Looks o d e p (answer, e'))
    (hr : Finds o d e' r) : Finds o d e r :=
  ⟨h.updates.trans hr.updates, hr.assignments.trans h.assignments,
    hr.outgoing.trans h.outgoing, hr.inside⟩

/-- The elements whose level comes next are ready, and no others among those that are left. -/
theorem finds_ready (hd : d.IsTree) {i : Nat} (nodes : List NodeId)
    (hnodes : ∀ n ∈ nodes, (d.bindingNode? n).isSome) (hs : e.Scoped o d)
    (hroot : (e.typeContexts.get? Document.root).isSome) (hi : e.HandedUpTo d i) :
    Finds o d e (e.ready d nodes) ∧
      (e.ready d nodes).1.map (·.1) = nodes.filter (d.level · ≤ i + 1) := by
  induction nodes generalizing e with
  | nil => exact ⟨⟨.refl, rfl, rfl, by simp [ready]⟩, rfl⟩
  | cons n nodes ih =>
    have hn := hnodes n (List.mem_cons_self ..)
    obtain ⟨content, hc⟩ := Option.isSome_iff_exists.mp hn
    obtain ⟨p, hp⟩ := hd.exists_parent (Document.bindingNode?_eq_some.mp hc)
    have hlevel := hd.level_element hn hp
    have hlt := hd.lt_of_parent? hp
    have hlook := looks_outgoingOf (o := o) hd
      (Nat.lt_trans hlt (Document.lt_size_of_parent? hp)) hroot
    have hiff := hlook.isSome_iff hd hs hi
    rw [ready, hp]
    dsimp only
    generalize e.outgoingOf d p = r at hlook hiff ⊢
    obtain ⟨answer, e₁⟩ := r
    have hs₁ := hlook.updates.scoped hs
    have hroot₁ : (e₁.typeContexts.get? Document.root).isSome := by
      obtain ⟨a, ha⟩ := Option.isSome_iff_exists.mp hroot
      rw [hlook.updates.grows.typeContexts _ _ ha, Option.isSome_some]
    have hi₁ : e₁.HandedUpTo d i := by
      intro m
      rw [show e₁.outgoing = e.outgoing from hlook.outgoing]
      exact hi m
    obtain ⟨hfinds, hmap⟩ := ih (fun m hm => hnodes m (List.mem_cons_of_mem n hm)) hs₁ hroot₁ hi₁
    cases answer with
    | none =>
      -- the level of the parent has not been reached
      have hgt : ¬d.level n ≤ i + 1 := by
        intro hle
        rw [hlevel] at hle
        cases hiff.mpr (Nat.le_of_succ_le_succ hle)
      refine ⟨hfinds.after hlook, ?_⟩
      rw [List.filter_cons_of_neg (by simpa using hgt)]
      exact hmap
    | some a =>
      have hle : d.level n ≤ i + 1 := by
        rw [hlevel]
        exact Nat.succ_le_succ (hiff.mp rfl)
      have hafter := hfinds.after hlook
      refine ⟨⟨hafter.updates, hafter.assignments, hafter.outgoing, ?_⟩, ?_⟩
      · intro m b hm
        rcases List.mem_cons.mp hm with heq | hm
        · cases heq
          exact ⟨p, hp, hfinds.updates.grows.inside? hlook.answer.symm⟩
        · exact hafter.inside m b hm
      · rw [List.filter_cons_of_pos (by simpa using hle), List.map_cons, ← hmap]

/-! ### Scopes -/

theorem unseen_append (e : Engine U) (ready : List (NodeId × Assignment)) (n : NodeId)
    (a : Assignment) :
    e.unseen (ready ++ [(n, a)]) =
      match a with
      | .unknown => e.unseen ready
      | .context c =>
        if (e.scopes.get? c).isSome || (e.unseen ready).any (·.1 == c) then e.unseen ready
        else e.unseen ready ++ [(c, n)] := by
  rw [unseen, List.foldl_append]
  rfl

theorem any_fst_iff {β : Type} {xs : List (Nat × β)} {k : Nat} :
    xs.any (·.1 == k) = true ↔ k ∈ xs.map (·.1) := by
  simp only [List.any_eq_true, List.mem_map, beq_iff_eq]

/-- The contexts of ready elements whose scope has not been looked at, each of them once. -/
structure Covers (e : Engine U) (ready : List (NodeId × Assignment))
    (found : List (ContextId × NodeId)) : Prop where
  nodup : (found.map (·.1)).Nodup
  sound : ∀ c n, (c, n) ∈ found → (n, .context c) ∈ ready ∧ e.scopes.get? c = none
  complete : ∀ n c, (n, .context c) ∈ ready →
    (e.scopes.get? c).isSome ∨ c ∈ found.map (·.1)

theorem covers_unseen (e : Engine U) (ready : List (NodeId × Assignment)) :
    e.Covers ready (e.unseen ready) := by
  -- contexts are collected from the left, so the last element comes on top of the others
  induction ready using List.reverseRecOn with
  | nil => exact ⟨List.nodup_nil, by simp [unseen], by simp⟩
  | append_singleton ready x ih =>
    obtain ⟨n, a⟩ := x
    have hsound : ∀ c m, (c, m) ∈ e.unseen ready →
        (m, .context c) ∈ ready ++ [(n, a)] ∧ e.scopes.get? c = none := by
      intro c m hm
      exact ⟨List.mem_append_left _ (ih.sound c m hm).1, (ih.sound c m hm).2⟩
    rw [unseen_append]
    cases a with
    | unknown =>
      refine ⟨ih.nodup, hsound, ?_⟩
      intro m c hm
      rcases List.mem_append.mp hm with hold | hnew
      · exact ih.complete m c hold
      · cases List.mem_singleton.mp hnew
    | context c =>
      dsimp only
      split
      · next hseen =>
        refine ⟨ih.nodup, hsound, ?_⟩
        intro m c' hm
        rcases List.mem_append.mp hm with hold | hnew
        · exact ih.complete m c' hold
        · cases List.mem_singleton.mp hnew
          rw [Bool.or_eq_true, any_fst_iff] at hseen
          exact hseen
      · next hunseen =>
        rw [Bool.or_eq_true, any_fst_iff, not_or] at hunseen
        obtain ⟨hscope, hc⟩ := hunseen
        refine ⟨?_, ?_, ?_⟩
        · rw [List.map_append, List.map_singleton, ← List.concat_eq_append]
          exact ih.nodup.concat hc
        · intro c' m hm
          rcases List.mem_append.mp hm with hold | hnew
          · exact hsound c' m hold
          · cases List.mem_singleton.mp hnew
            exact ⟨List.mem_append_right _ (List.mem_singleton_self _),
              Option.not_isSome_iff_eq_none.mp hscope⟩
        · intro m c' hm
          rw [List.map_append, List.mem_append]
          rcases List.mem_append.mp hm with hold | hnew
          · exact (ih.complete m c' hold).imp_right .inl
          · cases List.mem_singleton.mp hnew
            exact .inr (.inr (List.mem_singleton_self _))

/-! ### Declarations -/

/-- Only the program changes, by given declarations. -/
structure Declaring (e e' : Engine U) (cs : List Declaration) : Prop where
  same : ∃ p, e' = { e with probe := p }
  declarations : e'.probe.declarations = e.probe.declarations ++ cs
  pending : e'.probe.pending = e.probe.pending ++ textOf cs
  revisions : e'.probe.revisions = e.probe.revisions

theorem Declaring.refl (e : Engine U) : Declaring e e [] :=
  ⟨⟨e.probe, rfl⟩, (List.append_nil _).symm, String.append_empty.symm, rfl⟩

theorem Declaring.trans {cs cs' : List Declaration} (h : Declaring e e' cs)
    (h' : Declaring e' e'' cs') : Declaring e e'' (cs ++ cs') := by
  refine ⟨?_, ?_, ?_, h'.revisions.trans h.revisions⟩
  · obtain ⟨p, rfl⟩ := h.same
    obtain ⟨p', rfl⟩ := h'.same
    exact ⟨p', rfl⟩
  · rw [h'.declarations, h.declarations, List.append_assoc]
  · rw [h'.pending, h.pending, textOf_append, String.append_assoc]

theorem declaring_declare (e : Engine U) (c : Declaration) : Declaring e (e.declare c) [c] := by
  refine ⟨⟨_, rfl⟩, e.probe.declarations_declare c, ?_, e.probe.revisions_declare c⟩
  rw [textOf_singleton]
  exact e.probe.pending_declare c

theorem Declaring.grows {cs : List Declaration} (h : Declaring e e' cs) : e.Grows e' := by
  obtain ⟨p, rfl⟩ := h.same
  exact grows_of_keeps (.refl _) p _

theorem Declaring.quiet {cs : List Declaration} (h : Declaring e e' cs) : e.Quiet e' := by
  have hrevisions := h.revisions
  obtain ⟨p, rfl⟩ := h.same
  exact ⟨rfl, rfl, rfl, hrevisions⟩

/-- After a declaration something is pending. -/
theorem Declaring.pending_ne {cs : List Declaration} (h : Declaring e e' cs) (hne : cs ≠ []) :
    e'.probe.pending ≠ "" := by
  obtain ⟨c, cs, rfl⟩ := List.exists_cons_of_ne_nil hne
  intro hempty
  rw [h.pending, textOf] at hempty
  have htext := (String.append_eq_empty_iff.mp (String.append_eq_empty_iff.mp hempty).2).1
  exact Probe.text_ne_empty c htext

theorem declaring_scopes (found : List (ContextId × NodeId)) (e : Engine U) :
    Declaring e (found.foldl (fun e found => e.declare (.scope found.1)) e)
      (found.map fun x => .scope x.1) := by
  induction found generalizing e with
  | nil => exact .refl e
  | cons x found ih => exact (declaring_declare e (.scope x.1)).trans (ih _)

/-- Different scopes can be declared one after the other, if none of them has been declared
before. -/
theorem reach_scopes (found : List (ContextId × NodeId)) (hreach : Reach o d typeLibrary e)
    (hnodup : (found.map (·.1)).Nodup) (hlt : ∀ c ∈ found.map (·.1), c < e.contexts.size)
    (hnew : ∀ c ∈ found.map (·.1), .scope c ∉ e.probe.declarations) :
    Reach o d typeLibrary (found.foldl (fun e found => e.declare (.scope found.1)) e) := by
  induction found generalizing e with
  | nil => exact hreach
  | cons x found ih =>
    rw [List.map_cons, List.nodup_cons] at hnodup
    rw [List.map_cons] at hlt hnew
    have hfirst := hreach.declareScope (hlt _ (List.mem_cons_self ..))
      (hnew _ (List.mem_cons_self ..))
    refine ih hfirst hnodup.2 (fun c hc => hlt c (List.mem_cons_of_mem _ hc)) ?_
    intro c hc hmem
    rw [(declaring_declare e (.scope x.1)).declarations] at hmem
    rcases List.mem_append.mp hmem with hold | hx
    · exact hnew c (List.mem_cons_of_mem _ hc) hold
    · cases List.mem_singleton.mp hx
      exact hnodup.1 hc

/-- The bindings of an element are there, under the numbers that they bear. -/
theorem exists_binding (hd : d.WellFormed) {n : NodeId} {b : BindingId}
    (hb : b ∈ d.bindingsOf n) : ∃ binding, d.bindings[b]? = some binding ∧ binding.id = b := by
  cases hc : d.bindingNode? n with
  | none => simp [Document.bindingsOf, hc] at hb
  | some content =>
    have hkind := Document.bindingNode?_eq_some.mp hc
    rw [Document.bindingsOf_eq hkind] at hb
    have howner := hd.bindings_own n content hkind b hb
    rw [Document.owner?, Option.map_eq_some_iff] at howner
    obtain ⟨binding, hget, heq⟩ := howner
    exact ⟨binding, hget, (Prod.mk.inj heq).1⟩

/-- An element has a binding. -/
theorem exists_mem_bindingsOf (hd : d.WellFormed) {n : NodeId} (hn : (d.bindingNode? n).isSome) :
    ∃ b, b ∈ d.bindingsOf n := by
  obtain ⟨content, hc⟩ := Option.isSome_iff_exists.mp hn
  have hkind := Document.bindingNode?_eq_some.mp hc
  rw [Document.bindingsOf_eq hkind]
  exact List.exists_mem_of_ne_nil _ (hd.bindings_ne n content hkind)

theorem nodup_bindingsOf (hd : d.WellFormed) (n : NodeId) : (d.bindingsOf n).Nodup := by
  cases hc : d.bindingNode? n with
  | none => simp [Document.bindingsOf, hc]
  | some content =>
    have hkind := Document.bindingNode?_eq_some.mp hc
    rw [Document.bindingsOf_eq hkind]
    exact hd.bindings_nodup n content hkind

theorem scopeOf?_declare (e : Engine U) (c : Declaration) (a : Assignment) :
    (e.declare c).scopeOf? a = e.scopeOf? a := rfl

/-- The values of bindings of an element that is assigned a known scope are declared, if none of
them has been declared before. -/
theorem declaring_declareBindings (hd : d.WellFormed) {n : NodeId} {c : ContextId}
    {members : List String} (hassign : e.assignments.get? n = some (.context c))
    (hscope : e.scopeOf? (.context c) = some (c, members))
    (hfresh : ∀ b ∈ d.bindingsOf n, ∀ x c' members',
      .transformation x c' members' ∈ e.probe.declarations → x.id ≠ b) :
    Updates o d e (e.declareBindings d n c members) ∧
      ∃ cs, Declaring e (e.declareBindings d n c members) cs ∧
        ∀ b ∈ d.bindingsOf n, ∃ x, .transformation x c members ∈ cs ∧ x.id = b := by
  unfold declareBindings
  have hnodup := nodup_bindingsOf hd n
  -- the induction is over the bindings that are left to declare
  obtain ⟨bs, hbs, hsub⟩ : ∃ bs, bs = d.bindingsOf n ∧ bs ⊆ d.bindingsOf n :=
    ⟨_, rfl, fun _ hb => hb⟩
  rw [← hbs] at hfresh hnodup ⊢
  clear hbs
  induction bs generalizing e with
  | nil => exact ⟨.refl, [], .refl e, fun _ hb => nomatch hb⟩
  | cons b bs ih =>
    rw [List.nodup_cons] at hnodup
    have hb := hsub (List.mem_cons_self ..)
    obtain ⟨binding, hget, rfl⟩ := exists_binding hd hb
    have hupdate : Update o d e (e.declare (.transformation binding c members)) :=
      .declareBinding hget hb hassign hscope (hfresh _ (List.mem_cons_self ..))
    have hfirst := declaring_declare e (.transformation binding c members)
    have hassign' := hupdate.grows.assignments _ _ hassign
    have hscope' := (scopeOf?_declare e (.transformation binding c members) _).trans hscope
    have hfresh' : ∀ b' ∈ bs, ∀ x c' members', .transformation x c' members' ∈
        (e.declare (.transformation binding c members)).probe.declarations → x.id ≠ b' := by
      intro b' hb' x c' members' hx
      rw [hfirst.declarations] at hx
      rcases List.mem_append.mp hx with hold | hnew
      · exact hfresh b' (List.mem_cons_of_mem _ hb') x c' members' hold
      · cases List.mem_singleton.mp hnew
        rintro rfl
        exact hnodup.1 hb'
    obtain ⟨hus, cs, hcs, hdeclared⟩ := ih hassign' hscope' hnodup.2
      hfresh' fun b' hb' => hsub (List.mem_cons_of_mem _ hb')
    rw [List.foldl_cons, hget]
    refine ⟨.head hupdate hus, _, hfirst.trans hcs, ?_⟩
    intro b' hb'
    rcases List.mem_cons.mp hb' with rfl | hb'
    · exact ⟨binding, List.mem_append_left _ (List.mem_singleton_self _), rfl⟩
    · obtain ⟨x, hx, hid⟩ := hdeclared b' hb'
      exact ⟨x, List.mem_append_right _ hx, hid⟩

/-! ### Learning scopes -/

/-- The scopes that have been asked for are learned as they have been answered, and all else
stays. -/
structure Learns (o : Oracle U) (d : Document) (e e' : Engine U)
    (shapes : List (String × Shape)) (contexts : List ContextId) : Prop where
  updates : Updates o d e e'
  assignments : e'.assignments = e.assignments
  outgoing : e'.outgoing = e.outgoing
  scopes : ∀ c ∈ contexts, e'.scopes.get? c = some (shapeOf shapes (scopeName c))

theorem learns_learnScope {shapes : List (String × Shape)} {x : ContextId × NodeId}
    (hanswer : ScopeAnswer o e.calls x.1 (shapeOf shapes (scopeName x.1)))
    (hnew : e.scopes.get? x.1 = none) :
    Learns o d e (learnScope d shapes e x) shapes [x.1] := by
  obtain ⟨c, n⟩ := x
  unfold learnScope
  dsimp only
  refine ⟨?_, ?_, ?_, ?_⟩
  · split
    · refine .tail (.single (.report _ _ _)) (.learn _ ?_ ?_)
      · exact hanswer
      · exact hnew
    · exact .single (.learn _ hanswer hnew)
  · split <;> rfl
  · split <;> rfl
  · intro c' hc'
    rw [List.mem_singleton.mp hc']
    exact Table.get?_insert_self _ _ _

theorem learns_foldl (shapes : List (String × Shape)) (found : List (ContextId × NodeId))
    (hnodup : (found.map (·.1)).Nodup)
    (hanswer : ∀ c ∈ found.map (·.1), ScopeAnswer o e.calls c (shapeOf shapes (scopeName c)))
    (hnew : ∀ c ∈ found.map (·.1), e.scopes.get? c = none) :
    Learns o d e (found.foldl (learnScope d shapes) e) shapes (found.map (·.1)) := by
  induction found generalizing e with
  | nil => exact ⟨.refl, rfl, rfl, by simp⟩
  | cons x found ih =>
    rw [List.map_cons, List.nodup_cons] at hnodup
    rw [List.map_cons] at hanswer hnew
    have hfirst : Learns o d e (learnScope d shapes e x) shapes [x.1] :=
      learns_learnScope (hanswer _ (List.mem_cons_self ..)) (hnew _ (List.mem_cons_self ..))
    have hscopes : (learnScope d shapes e x).scopes =
        e.scopes.insert x.1 (shapeOf shapes (scopeName x.1)) := by
      unfold learnScope
      dsimp only
      split <;> rfl
    have hrest := ih hnodup.2
      (fun c hc => by
        rw [hfirst.updates.quiet.calls]
        exact hanswer c (List.mem_cons_of_mem _ hc))
      (fun c hc => by
        have hne : c ≠ x.1 := by
          rintro rfl
          exact hnodup.1 hc
        rw [hscopes, Table.get?_insert_of_ne hne]
        exact hnew c (List.mem_cons_of_mem _ hc))
    refine ⟨hfirst.updates.trans hrest.updates, hrest.assignments.trans hfirst.assignments,
      hrest.outgoing.trans hfirst.outgoing, ?_⟩
    intro c hc
    rcases List.mem_cons.mp hc with rfl | hc
    · exact hrest.updates.grows.scopes _ _ (hfirst.scopes _ (List.mem_singleton_self _))
    · exact hrest.scopes c hc

/-! ### Evaluation -/

/-- An element that can be assigned: what its parent hands to it is fixed, the scope there has
been looked at, and nothing is fixed for the element itself. -/
structure ReadyIn (d : Document) (e : Engine U) (n : NodeId) (a : Assignment) : Prop where
  element : (d.bindingNode? n).isSome
  inside : ∃ p, d.parent? n = some p ∧ e.inside? d p = some a
  seen : ∀ c, a = .context c → (e.scopes.get? c).isSome
  assignment : e.assignments.get? n = none
  outgoing : e.outgoing.get? n = none

/-- An element stays ready while others are assigned. -/
theorem ReadyIn.mono {n : NodeId} {a : Assignment} (h : e.ReadyIn d n a) (hg : e.Grows e')
    (hassign : e'.assignments.get? n = none) (hout : e'.outgoing.get? n = none) :
    e'.ReadyIn d n a := by
  obtain ⟨p, hp, hin⟩ := h.inside
  refine ⟨h.element, ⟨p, hp, hg.inside? hin⟩, ?_, hassign, hout⟩
  intro c hc
  obtain ⟨s, hs⟩ := Option.isSome_iff_exists.mp (h.seen c hc)
  rw [hg.scopes c s hs, Option.isSome_some]

theorem scopeOf?_eq_some {a : Assignment} {c : ContextId} {members : List String}
    (h : e.scopeOf? a = some (c, members)) : a = .context c := by
  unfold scopeOf? at h
  split at h
  · cases h
  · split at h
    · cases h
      rfl
    · cases h

theorem scopeOf?_mono (hg : e.Grows e') {c : ContextId} (h : (e.scopeOf? (.context c)).isSome) :
    (e'.scopeOf? (.context c)).isSome := by
  obtain ⟨type, members, hs⟩ := scopeOf?_isSome h
  unfold scopeOf?
  simp only [hg.scopes c _ hs, Option.isSome_some]

/-- The assignment of ready elements.  Those in whose context nothing is in scope hand nothing
to their content; for the others the values of their bindings are declared. -/
structure Evaluates (o : Oracle U) (d : Document) (e : Engine U)
    (ready : List (NodeId × Assignment)) (r : List (NodeId × ContextId) × Engine U) : Prop where
  updates : Updates o d e r.2
  assignments : ∀ n, (r.2.assignments.get? n).isSome ↔
    (e.assignments.get? n).isSome ∨ n ∈ ready.map (·.1)
  outgoing : ∀ n, (r.2.outgoing.get? n).isSome ↔
    (e.outgoing.get? n).isSome ∨ n ∈ ready.map (·.1) ∧ n ∉ r.1.map (·.1)
  sublist : (r.1.map (·.1)).Sublist (ready.map (·.1))
  known : ∀ n c, (n, c) ∈ r.1 →
    r.2.assignments.get? n = some (.context c) ∧ (r.2.scopeOf? (.context c)).isSome
  declared : ∀ n c, (n, c) ∈ r.1 → r.2.Evaluated d n
  pending : r.1 ≠ [] → r.2.probe.pending ≠ ""

theorem updates_declarations (h : Updates o d e e') :
    ∃ cs, e'.probe.declarations = e.probe.declarations ++ cs ∧
      e'.probe.pending = e.probe.pending ++ textOf cs := by
  induction h with
  | refl => exact ⟨[], (List.append_nil _).symm, String.append_empty.symm⟩
  | tail _ hstep ih =>
    obtain ⟨cs, hcs, hp⟩ := ih
    obtain ⟨cs', hcs', -, hp', -⟩ := hstep.adds
    refine ⟨cs ++ cs', by rw [hcs', hcs, List.append_assoc], ?_⟩
    rw [hp', hp, textOf_append, String.append_assoc]

theorem isSome_get?_insert {α : Type} (t : Table α) (k : Nat) (v : α) (j : Nat) :
    ((t.insert k v).get? j).isSome ↔ (t.get? j).isSome ∨ j = k := by
  rw [Table.get?_insert]
  split <;> simp [*]

/-- One more element, in whose context nothing is in scope. -/
theorem Evaluates.cons_unknown {ready : List (NodeId × Assignment)} {n : NodeId} {a : Assignment}
    {r : List (NodeId × ContextId) × Engine U} (h : Evaluates o d e' ready r)
    (hn : n ∉ ready.map (·.1)) (hus : Updates o d e e')
    (hassign : e'.assignments = e.assignments.insert n a)
    (hout : e'.outgoing = e.outgoing.insert n .unknown) :
    Evaluates o d e ((n, a) :: ready) r := by
  refine ⟨hus.trans h.updates, ?_, ?_, h.sublist.cons _, h.known, h.declared, h.pending⟩
  · intro m
    rw [h.assignments, hassign, isSome_get?_insert, List.map_cons, List.mem_cons, or_assoc]
  · intro m
    rw [h.outgoing, hout, isSome_get?_insert, List.map_cons, List.mem_cons]
    by_cases hm : m = n
    · rw [hm]
      exact iff_of_true (.inl (.inr rfl)) (.inr ⟨.inl rfl, fun hr => hn (h.sublist.subset hr)⟩)
    · simp [hm]

/-- One more element, whose context has a known scope. -/
theorem Evaluates.cons_known {ready : List (NodeId × Assignment)} {n : NodeId} {c : ContextId}
    {r : List (NodeId × ContextId) × Engine U} (h : Evaluates o d e' ready r)
    (hn : n ∉ ready.map (·.1)) (hus : Updates o d e e')
    (hassign : e'.assignments = e.assignments.insert n (.context c))
    (hout : e'.outgoing = e.outgoing) (hscope : (e'.scopeOf? (.context c)).isSome)
    (hdeclared : e'.Evaluated d n)
    (hpending : e'.probe.pending ≠ "") :
    Evaluates o d e ((n, .context c) :: ready) ((n, c) :: r.1, r.2) := by
  have hg := h.updates.grows
  obtain ⟨cs, hcs, hp⟩ := updates_declarations h.updates
  refine ⟨hus.trans h.updates, ?_, ?_, h.sublist.cons_cons _, ?_, ?_, ?_⟩
  · intro m
    rw [h.assignments, hassign, isSome_get?_insert, List.map_cons, List.mem_cons, or_assoc]
  · intro m
    rw [h.outgoing, hout, List.map_cons, List.map_cons, List.mem_cons, List.mem_cons]
    by_cases hm : m = n
    · rw [hm]
      simp [hn]
    · simp [hm]
  · intro m c' hm
    rcases List.mem_cons.mp hm with heq | hm
    · cases heq
      refine ⟨hg.assignments _ _ ?_, scopeOf?_mono hg hscope⟩
      rw [hassign, Table.get?_insert_self]
    · exact h.known m c' hm
  · intro m c' hm
    rcases List.mem_cons.mp hm with heq | hm
    · cases heq
      exact hdeclared.mono (hcs ▸ List.subset_append_left _ _)
    · exact h.declared m c' hm
  · intro _ hempty
    dsimp only at hempty
    rw [hp] at hempty
    exact hpending (String.append_eq_empty_iff.mp hempty).1

/-- The values of the bindings of an element have not been declared before it is assigned. -/
theorem Listed.fresh (hd : d.WellFormed) (h : e.Listed d) {n : NodeId}
    (hn : e.assignments.get? n = none) : ∀ b ∈ d.bindingsOf n, ∀ x c members,
      .transformation x c members ∈ e.probe.declarations → x.id ≠ b := by
  rintro b hb x c members hx rfl
  obtain ⟨-, m, type, hm, hassign, -⟩ := h.evaluated x c members hx
  rw [hd.node_unique hm hb, hn] at hassign
  cases hassign

theorem evaluates (hd : d.WellFormed) (hreach : Reach o d typeLibrary e)
    (ready : List (NodeId × Assignment))
    (hnodup : (ready.map (·.1)).Nodup) (hready : ∀ n a, (n, a) ∈ ready → e.ReadyIn d n a) :
    Evaluates o d e ready (e.evaluate d ready) := by
  induction ready generalizing e with
  | nil =>
    exact ⟨.refl, by simp [evaluate], by simp [evaluate], .refl _, by simp [evaluate],
      by simp [evaluate], by simp [evaluate]⟩
  | cons x ready ih =>
    obtain ⟨n, a⟩ := x
    rw [List.map_cons, List.nodup_cons] at hnodup
    obtain ⟨hn, hnodup⟩ := hnodup
    have hhead := hready n a (List.mem_cons_self ..)
    obtain ⟨p, hp, hin⟩ := hhead.inside
    have hassign : Update o d e { e with assignments := e.assignments.insert n a } :=
      .assign hhead.element hp hin hhead.seen hhead.assignment
    -- the other elements stay ready when only this one gets values
    have hothers : ∀ e₁ : Engine U, e.Grows e₁ →
        e₁.assignments = e.assignments.insert n a →
        (∀ m, m ≠ n → e₁.outgoing.get? m = e.outgoing.get? m) →
        ∀ m b, (m, b) ∈ ready → e₁.ReadyIn d m b := by
      intro e₁ hg hassign₁ hout₁ m b hm
      have hold := hready m b (List.mem_cons_of_mem _ hm)
      have hne : m ≠ n := by
        rintro rfl
        exact hn (List.mem_map.mpr ⟨_, hm, rfl⟩)
      refine hold.mono hg ?_ ((hout₁ m hne).trans hold.outgoing)
      rw [hassign₁, Table.get?_insert_of_ne hne]
      exact hold.assignment
    rw [evaluate]
    dsimp only
    split
    · -- nothing is known to be in scope, and the content gets nothing
      next hscope =>
      have hleave : Update o d { e with assignments := e.assignments.insert n a }
          { e with assignments := e.assignments.insert n a
                   outgoing := e.outgoing.insert n .unknown } :=
        .leave (Table.get?_insert_self _ _ _) hscope hhead.outgoing
      have hus : Updates o d e _ := .tail (.single hassign) hleave
      exact (ih (hreach.updates hus) hnodup (hothers _ hus.grows rfl fun m hne =>
        Table.get?_insert_of_ne hne _)).cons_unknown hn hus rfl rfl
    · -- the bindings are declared, and the content waits for their values
      next c members hscope =>
      cases scopeOf?_eq_some hscope
      obtain ⟨hus, cs, hcs, hdeclared⟩ := declaring_declareBindings (o := o)
        (e := { e with assignments := e.assignments.insert n (.context c) }) hd
        (Table.get?_insert_self _ _ _) hscope (hreach.listed.fresh hd hhead.assignment)
      generalize { e with assignments := e.assignments.insert n (.context c) }.declareBindings
        d n c members = e₁ at hus hcs ⊢
      replace hus : Updates o d e e₁ := .head hassign hus
      obtain ⟨probe, hsame⟩ := hcs.same
      have hout : e₁.outgoing = e.outgoing := by rw [hsame]
      have hassign₁ : e₁.assignments = e.assignments.insert n (.context c) := by rw [hsame]
      have hothers₁ := hothers e₁ hus.grows hassign₁ fun m _ => by rw [hout]
      refine (ih (hreach.updates hus) hnodup hothers₁).cons_known hn hus hassign₁ hout
        (scopeOf?_mono hcs.grows (Option.isSome_of_eq_some hscope)) ?_ ?_
      · intro b hb
        obtain ⟨x, hx, hid⟩ := hdeclared b hb
        exact ⟨x, c, members, hcs.declarations ▸ List.mem_append_right _ hx, hid⟩
      · obtain ⟨b, hb⟩ := exists_mem_bindingsOf hd hhead.element
        obtain ⟨x, hx, -⟩ := hdeclared b hb
        exact hcs.pending_ne (List.ne_nil_of_mem hx)

/-! ### Child contexts -/

/-- The search for bindings that change the type in scope only reports. -/
theorem candidates_spec (shapes : List (String × Shape)) (parent : Option String)
    (bs : List Binding) (e : Engine U) :
    Updates o d e (e.candidates d shapes parent bs).2 ∧
      (∃ diagnostics, (e.candidates d shapes parent bs).2 = { e with diagnostics }) ∧
      ∀ b ∈ (e.candidates d shapes parent bs).1, b ∈ bs := by
  induction bs generalizing e with
  | nil => exact ⟨.refl, ⟨e.diagnostics, rfl⟩, by simp [candidates]⟩
  | cons b bs ih =>
    have hfirst : Updates o d e (e.changesType d shapes parent b).2 ∧
        ∃ diagnostics, (e.changesType d shapes parent b).2 = { e with diagnostics } := by
      unfold changesType
      split
      · exact ⟨.single (.report _ _ _), _, rfl⟩
      · split
        · exact ⟨.single (.report _ _ _), _, rfl⟩
        · exact ⟨.refl, e.diagnostics, rfl⟩
    rw [candidates]
    generalize e.changesType d shapes parent b = r at hfirst ⊢
    obtain ⟨changes, e₁⟩ := r
    obtain ⟨hus, diagnostics, hsame⟩ := hfirst
    obtain ⟨hus', ⟨diagnostics', hsame'⟩, hmem⟩ := ih e₁
    refine ⟨hus.trans hus', ⟨diagnostics', ?_⟩, ?_⟩
    · dsimp only at hsame ⊢
      rw [hsame', hsame]
    · intro b' hb'
      dsimp only at hb'
      split at hb'
      · rcases List.mem_cons.mp hb' with rfl | hb'
        · exact List.mem_cons_self ..
        · exact List.mem_cons_of_mem _ (hmem b' hb')
      · exact List.mem_cons_of_mem _ (hmem b' hb')

/-- An evaluated element whose content has not been given anything. -/
structure Open (d : Document) (e : Engine U) (n : NodeId) (c : ContextId) : Prop where
  assignment : e.assignments.get? n = some (.context c)
  scope : (e.scopeOf? (.context c)).isSome
  outgoing : e.outgoing.get? n = none
  evaluated : e.Evaluated d n

/-- What an element hands to its content is fixed. -/
structure Settles (o : Oracle U) (d : Document) (e : Engine U) (n : NodeId)
    (r : Assignment × Engine U) : Prop where
  updates : Updates o d e { r.2 with outgoing := r.2.outgoing.insert n r.1 }
  assignments : r.2.assignments = e.assignments
  outgoing : r.2.outgoing = e.outgoing

theorem settles_childContext (hd : d.WellFormed) {n : NodeId} {c : ContextId} (h : e.Open d n c)
    (shapes : List (String × Shape)) : Settles o d e n (e.childContext d shapes n c) := by
  unfold childContext
  split
  · exact ⟨.single (.keep h.assignment h.scope h.outgoing h.evaluated), rfl, rfl⟩
  · next content hcontent =>
    dsimp only
    obtain ⟨hus, ⟨diagnostics, hsame⟩, hmem⟩ := candidates_spec (o := o) (d := d) shapes
      ((e.contextTypes.get? c).bind (·.typeId?))
      (content.bindings.filterMap (d.bindings[·]?)) e
    generalize e.candidates d shapes ((e.contextTypes.get? c).bind (·.typeId?))
      (content.bindings.filterMap (d.bindings[·]?)) = r at hus hsame hmem ⊢
    obtain ⟨found, e₁⟩ := r
    dsimp only at hus hsame hmem
    subst hsame
    -- only a single binding that changes the type opens a context
    have hkeep : Settles o d e n (.context c, { e with diagnostics }) :=
      ⟨hus.tail (.keep h.assignment h.scope h.outgoing h.evaluated), rfl, rfl⟩
    dsimp only
    split
    · exact hkeep
    · split
      · exact hkeep
      · next b =>
        refine ⟨hus.tail (.openBinding _ h.assignment h.scope h.outgoing h.evaluated ?_), rfl, rfl⟩
        -- the binding is one of those on the element
        obtain ⟨k, hk, hget⟩ := List.mem_filterMap.mp (hmem b (List.mem_singleton_self b))
        have hkind := Document.bindingNode?_eq_some.mp hcontent
        rw [Document.bindingsOf_eq hkind]
        have howner := hd.bindings_own n content hkind k hk
        rw [Document.owner?, hget, Option.map_some] at howner
        cases howner
        exact hk
      · exact ⟨(hus.tail (.report _ _ _)).tail
          (.keep h.assignment h.scope h.outgoing h.evaluated), rfl, rfl⟩

theorem updates_settle (hd : d.WellFormed) (shapes : List (String × Shape))
    (nodes : List (NodeId × ContextId)) (hnodup : (nodes.map (·.1)).Nodup)
    (hopen : ∀ n c, (n, c) ∈ nodes → e.Open d n c) :
    Updates o d e (e.settle d shapes nodes) ∧
      (e.settle d shapes nodes).assignments = e.assignments ∧
      ∀ n, ((e.settle d shapes nodes).outgoing.get? n).isSome ↔
        (e.outgoing.get? n).isSome ∨ n ∈ nodes.map (·.1) := by
  induction nodes generalizing e with
  | nil => exact ⟨.refl, rfl, by simp [settle]⟩
  | cons x nodes ih =>
    obtain ⟨n, c⟩ := x
    rw [List.map_cons, List.nodup_cons] at hnodup
    have hfirst := settles_childContext (o := o) hd (hopen n c (List.mem_cons_self ..)) shapes
    rw [settle]
    dsimp only
    generalize e.childContext d shapes n c = r at hfirst ⊢
    obtain ⟨a, e₁⟩ := r
    obtain ⟨hus, hassign, hout⟩ := hfirst
    dsimp only at hus hassign hout ⊢
    -- the other elements stay open
    have hrest : ∀ m c', (m, c') ∈ nodes →
        { e₁ with outgoing := e₁.outgoing.insert n a }.Open d m c' := by
      intro m c' hm
      have hold := hopen m c' (List.mem_cons_of_mem _ hm)
      have hne : m ≠ n := by
        rintro rfl
        exact hnodup.1 (List.mem_map.mpr ⟨_, hm, rfl⟩)
      obtain ⟨cs, hcs, -⟩ := updates_declarations hus
      refine ⟨hus.grows.assignments _ _ hold.assignment, scopeOf?_mono hus.grows hold.scope, ?_,
        hold.evaluated.mono (hcs ▸ List.subset_append_left _ _)⟩
      rw [Table.get?_insert_of_ne hne, hout]
      exact hold.outgoing
    obtain ⟨hus', hassign', hout'⟩ := ih hnodup.2 hrest
    refine ⟨hus.trans hus', hassign'.trans hassign, ?_⟩
    intro m
    rw [hout', isSome_get?_insert, hout, List.map_cons, List.mem_cons, or_assoc]

end ViewLint.Engine
