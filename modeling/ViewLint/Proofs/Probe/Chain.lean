import ViewLint.Proofs.Probe.Trail

/-!
# Places through the chain of revisions

There are two ways from the text of a program to the markup: the merged map, and the chain of the
maps of all revisions, of which each goes to the revision before or to the markup.  An offset that a
mark holds is found at the same place either way, and so is one behind a mark of the same revision.
The two ways part before the first mark of a revision.  There the merged map goes on to the last
mark of an older revision, while the map of the revision has nothing before the offset but the whole
older text: this leads to the beginning of the program, which comes from nowhere.

## Main definitions

* `Whence` — a place with the text of its source.
* `SourceMap.whence`, `Chain.whence` — what a map and a chain of maps say about an offset.
* `Probe.Marked` — a mark of the pending text begins at an offset or before it.
* `Probe.Linked` — the maps of a chain follow each other, and it leads the first byte nowhere.

## Main results

* `Probe.Linked.whence_commit_of_lt`, `Probe.Linked.whence_commit_of_le` — the chain after a
  revision.
* `Probe.Linked.run` — operations keep what a chain says.
* `Probe.Linked.whence_of_marked`, `Probe.Linked.whence_of_not_marked` — the text that a revision
  adds.
* `chain_agrees_with_merged_iff` — where the two ways agree.
-/

namespace ViewLint

/-- A place that an offset comes from, with the text of its source. -/
structure Whence where
  source : String
  offset : Nat
  exact : Bool
  deriving DecidableEq, Repr

/-- Where an offset comes from by a stretch that begins at or before it. -/
def Stretch.whence (o : Nat) (x : Stretch) : Whence :=
  if o < x.stop then ⟨x.source, x.sourceStart + (o - x.start), true⟩
  else ⟨x.source, x.sourceStart, false⟩

theorem Stretch.source_whence (o : Nat) (x : Stretch) : (x.whence o).source = x.source := by
  unfold whence
  split <;> rfl

/-- What a map says about an offset. -/
def SourceMap.whence (m : SourceMap) (o : Nat) : Option Whence :=
  (m.translate o).map fun place => ⟨m.sourceName place.source, place.offset, place.exact⟩

/-- A map says about an offset what its last stretch that begins at or before it says. -/
theorem SourceMap.WellFormed.whence_eq {m : SourceMap} (h : m.WellFormed) (o : Nat) :
    m.whence o = (lastBefore o m.stretches).map (Stretch.whence o) := by
  rw [whence, h.translate_eq, Option.map_map]
  cases hfound : lastBefore o m.stretches with
  | none => rfl
  | some x =>
    obtain ⟨s, hs, rfl⟩ := List.mem_map.mp (mem_of_lastBefore hfound).1
    have hget := h.getElem?_sources hs
    have hname :
        m.sourceName (m.sources.idxOf (m.sourceName s.source)) = m.sourceName s.source := by
      rw [sourceName, List.getElem?_idxOf (List.mem_of_getElem? hget), Option.getD_some]
    simp only [Option.map_some, Function.comp_apply, Stretch.place, Stretch.whence]
    split
    · exact congrArg (fun source => some (Whence.mk source _ true)) hname
    · exact congrArg (fun source => some (Whence.mk source _ false)) hname

namespace Chain

/-- What some maps, the newest of which comes first, say about an offset. -/
def whenceFrom (maps : List SourceMap) (o : Nat) : Option Whence :=
  (translateFrom maps o).map fun found => ⟨found.1, found.2.offset, found.2.exact⟩

/-- What a chain says about an offset of the newest revision. -/
def whence (c : Chain) (o : Nat) : Option Whence := whenceFrom c.maps o

theorem whenceFrom_singleton (m : SourceMap) (o : Nat) : whenceFrom [m] o = m.whence o := by
  rw [whenceFrom, translateFrom, Option.map_map]
  rfl

/-- A place in the text of the next map is looked up there. -/
theorem whenceFrom_cons_cons (m previous : SourceMap) (older : List SourceMap) (o : Nat) :
    whenceFrom (m :: previous :: older) o = (m.whence o).bind fun x =>
      if x.source = previous.file then
        (whenceFrom (previous :: older) x.offset).map fun y =>
          { y with exact := x.exact && y.exact }
      else some x := by
  rw [whenceFrom, translateFrom, SourceMap.whence]
  cases hplace : m.translate o with
  | none => rfl
  | some place =>
    simp only [Option.map_some, Option.bind_some, Option.bind_eq_bind]
    split
    · rw [whenceFrom]
      cases translateFrom (previous :: older) place.offset with
      | none => rfl
      | some found => rfl
    · rfl

end Chain

namespace Probe

variable {p : Probe} {o : Nat}

/-! ### The merged map -/

/-- The merged map says about the committed text what the trail says. -/
theorem Kept.whence_merged (h : p.Kept) (ho : o < p.text.utf8ByteSize) :
    p.merged.whence o = (lastBefore o p.trail).map (Stretch.whence o) := by
  rw [h.merged.wellFormed.whence_eq, h.lastBefore_trail ho]

/-! ### The chain -/

/-- A mark of the pending text begins at an offset or before it. -/
def Marked (p : Probe) (o : Nat) : Prop :=
  ∃ k ∈ p.marks, k.start < k.stop ∧ p.text.utf8ByteSize + k.start ≤ o

/-- The maps of a chain are those of the revisions, and the chain leads the first byte nowhere, as
no copied text begins there. -/
structure Linked (p : Probe) : Prop extends p.Kept where
  size_pos : 0 < p.size
  trail_pos : ∀ x ∈ p.trail, 0 < x.start
  head : ∀ m older, p.chain.maps = m :: older → m.file = p.revisionName older.length
  zero : p.chain.whence 0 = none

theorem linked_initial (markupFile typeLibrary : String) :
    (initial markupFile typeLibrary).Linked := by
  refine ⟨kept_initial markupFile typeLibrary, ?_, ?_, ?_, rfl⟩
  · have hpos : 0 < (scaffold typeLibrary).utf8ByteSize :=
      Nat.pos_of_ne_zero (mt String.utf8ByteSize_eq_zero_iff.mp (scaffold_ne_empty typeLibrary))
    exact Nat.lt_of_lt_of_le hpos (Nat.le_add_left _ _)
  · intro x hx
    cases hx
  · intro m older hm
    cases hm

/-- What the map of the next revision says: what the marks say, or else what has been committed. -/
theorem Kept.whence_nextMap (h : p.Kept) (o : Nat) :
    p.nextMap.whence o =
      ((lastBefore o (markStretches p.text.utf8ByteSize p.markupFile p.marks)).or
        (lastBefore o p.backStretches)).map (Stretch.whence o) := by
  rw [(sends_nextMap h.tidy).1.wellFormed.whence_eq, stretches_nextMap, lastBefore_append]

/-- The committed text is a copy of the revision before. -/
theorem of_mem_backStretches {x : Stretch} (hx : x ∈ p.backStretches) :
    ∃ n, p.revisions = n + 1 ∧ x = ⟨0, p.text.utf8ByteSize, p.revisionName n, 0, none⟩ := by
  unfold backStretches at hx
  split at hx
  · cases hx
  · next n hn => exact ⟨n, hn, List.mem_singleton.mp (List.mem_filter.mp hx).1⟩

theorem Kept.source_whence_nextMap (h : p.Kept) {x : Whence} (hx : p.nextMap.whence o = some x) :
    x.source = p.markupFile ∨ ∃ n, p.revisions = n + 1 ∧ x.source = p.revisionName n := by
  rw [h.whence_nextMap] at hx
  obtain ⟨y, hy, rfl⟩ := Option.map_eq_some_iff.mp hx
  rw [y.source_whence]
  rcases Option.or_eq_some_iff.mp hy with hy | ⟨-, hy⟩
  · exact .inl (InRow.stretch_bounds h.tidy (mem_of_lastBefore hy).1).2.2.2
  · obtain ⟨n, hn, rfl⟩ := of_mem_backStretches (mem_of_lastBefore hy).1
    exact .inr ⟨n, hn, rfl⟩

/-- The chain after a revision: what comes from the markup is found at once, and all else by the
chain before. -/
theorem Linked.whence_commit (h : p.Linked) (o : Nat) :
    p.commit.2.chain.whence o = (p.nextMap.whence o).bind fun x =>
      if x.source = p.markupFile then some x
      else (p.chain.whence x.offset).map fun y => { y with exact := x.exact && y.exact } := by
  have hsource := fun x => h.source_whence_nextMap (o := o) (x := x)
  change Chain.whenceFrom (p.nextMap :: p.chain.maps) o = _
  have hhead := h.head
  unfold revisions Chain.size at hsource
  unfold Chain.whence
  cases hmaps : p.chain.maps with
  | nil =>
    rw [Chain.whenceFrom_singleton]
    cases hx : p.nextMap.whence o with
    | none => rfl
    | some x =>
      rcases hsource x hx with hfile | ⟨n, hn, -⟩
      · rw [Option.bind_some, if_pos hfile]
      · rw [hmaps] at hn
        cases hn
  | cons previous older =>
    rw [Chain.whenceFrom_cons_cons]
    cases hx : p.nextMap.whence o with
    | none => rfl
    | some x =>
      have hfile := hhead previous older hmaps
      rw [Option.bind_some, Option.bind_some]
      rcases hsource x hx with hx | ⟨n, hn, hx⟩
      · rw [if_neg (by rw [hx, hfile]; exact (p.revisionName_ne_markupFile _).symm), if_pos hx]
      · rw [hmaps] at hn
        obtain rfl : older.length = n := Nat.succ_inj.mp hn
        rw [if_pos (hx.trans hfile.symm), if_neg (by rw [hx]; exact p.revisionName_ne_markupFile _)]

/-- A revision changes nothing for what has been committed. -/
theorem Linked.whence_commit_of_lt (h : p.Linked) (ho : o < p.text.utf8ByteSize) :
    p.commit.2.chain.whence o = p.chain.whence o := by
  obtain ⟨n, hn⟩ : ∃ n, p.revisions = n + 1 := by
    apply Nat.exists_eq_succ_of_ne_zero
    intro hzero
    rw [h.fresh hzero] at ho
    exact absurd ho (Nat.not_lt_zero o)
  have hmarks : lastBefore o (markStretches p.text.utf8ByteSize p.markupFile p.marks) = none := by
    apply lastBefore_eq_none
    intro x hx
    have := (InRow.stretch_bounds h.tidy hx).1
    omega
  have hsolid : (Stretch.mk 0 p.text.utf8ByteSize (p.revisionName n) 0 none).solid = true :=
    decide_eq_true (Nat.zero_lt_of_lt ho)
  have hback : lastBefore o p.backStretches =
      some ⟨0, p.text.utf8ByteSize, p.revisionName n, 0, none⟩ := by
    simp [backStretches, hn, hsolid, lastBefore]
  have hnext : p.nextMap.whence o = some ⟨p.revisionName n, o, true⟩ := by
    rw [h.whence_nextMap, hmarks, hback, Option.none_or, Option.map_some, Stretch.whence, if_pos ho,
      Nat.zero_add, Nat.sub_zero]
  rw [h.whence_commit, hnext, Option.bind_some, if_neg (p.revisionName_ne_markupFile n)]
  simp

/-- Behind the committed text the marks of the revision decide. -/
theorem Linked.whence_commit_of_le (h : p.Linked) (ho : p.text.utf8ByteSize ≤ o) :
    p.commit.2.chain.whence o =
      (lastBefore o (markStretches p.text.utf8ByteSize p.markupFile p.marks)).map
        (Stretch.whence o) := by
  rw [h.whence_commit, h.whence_nextMap]
  cases hmark : lastBefore o (markStretches p.text.utf8ByteSize p.markupFile p.marks) with
  | some x =>
    have hx := (InRow.stretch_bounds h.tidy (mem_of_lastBefore hmark).1).2.2.2
    rw [Option.some_or, Option.map_some, Option.bind_some, x.source_whence, if_pos hx]
  | none =>
    rw [Option.none_or, Option.map_none]
    cases hback : lastBefore o p.backStretches with
    | none => rfl
    | some x =>
      -- the older text as a whole leads to its first byte
      obtain ⟨n, -, rfl⟩ := of_mem_backStretches (mem_of_lastBefore hback).1
      rw [Option.map_some, Option.bind_some, Stretch.whence, if_neg (Nat.not_lt.mpr ho),
        if_neg (p.revisionName_ne_markupFile n)]
      dsimp only
      rw [h.zero, Option.map_none]

/-! ### Operations -/

/-- Text that is emitted leaves the chain as it is. -/
theorem Linked.of_extends {p' : Probe} (h : p.Linked) (h' : p'.Kept) (hextends : p.Extends p')
    (hchain : p'.chain = p.chain) : p'.Linked := by
  obtain ⟨new, hnew, hstart⟩ := hextends.trail
  refine ⟨h', Nat.lt_of_lt_of_le h.size_pos hextends.size_le, ?_, ?_, ?_⟩
  · intro x hx
    rw [hnew] at hx
    rcases List.mem_append.mp hx with hx | hx
    · exact h.trail_pos x hx
    · exact Nat.lt_of_lt_of_le h.size_pos (hstart x hx)
  · intro m older hm
    rw [hchain] at hm
    rw [h.head m older hm, revisionName, file, ← hextends.markupFile]
    rfl
  · rw [hchain]
    exact h.zero

theorem Linked.commit (h : p.Linked) : p.commit.2.Linked := by
  refine ⟨h.toKept.commit, Nat.lt_of_lt_of_le h.size_pos h.extends_commit.size_le, ?_, ?_, ?_⟩
  · rw [h.trail_commit]
    exact h.trail_pos
  · intro m older hm
    obtain ⟨rfl, rfl⟩ := List.cons.inj hm
    exact p.file_nextMap
  · rw [h.whence_commit, h.whence_nextMap]
    have hmarks : lastBefore 0 (markStretches p.text.utf8ByteSize p.markupFile p.marks) = none := by
      apply lastBefore_eq_none
      intro x hx
      exact h.trail_pos x (List.mem_append_right _ hx)
    rw [hmarks, Option.none_or]
    cases hback : lastBefore 0 p.backStretches with
    | none => rfl
    | some x =>
      obtain ⟨n, -, rfl⟩ := of_mem_backStretches (mem_of_lastBefore hback).1
      have hfirst : (Stretch.whence 0 ⟨0, p.text.utf8ByteSize, p.revisionName n, 0, none⟩).offset =
          0 := by
        unfold Stretch.whence
        split <;> rfl
      rw [Option.map_some, Option.bind_some, Stretch.source_whence,
        if_neg (p.revisionName_ne_markupFile n), hfirst, h.zero, Option.map_none]

/-- An operation is a revision, or it leaves all that is committed as it is. -/
theorem perform_cases (p : Probe) (op : Operation) :
    op = .commit ∨ (p.perform op).text = p.text ∧ (p.perform op).chain = p.chain := by
  cases op with
  | emit text => exact .inr ⟨rfl, rfl⟩
  | emitMapped text location name => exact .inr ⟨rfl, rfl⟩
  | emitImports imports =>
    obtain ⟨t, ht⟩ := exists_emits_emitImports p imports
    exact .inr ⟨ht.text, ht.chain⟩
  | emitHandlers handlers =>
    obtain ⟨t, ht⟩ := exists_emits_emitHandlers p handlers
    exact .inr ⟨ht.text, ht.chain⟩
  | declare content => exact .inr ⟨(emits_declare p content).text, (emits_declare p content).chain⟩
  | commit => exact .inl rfl

/-- An operation keeps what the chain says about the committed text. -/
theorem Linked.perform (h : p.Linked) (op : Operation) :
    (p.perform op).Linked ∧
      ∀ o < p.text.utf8ByteSize, (p.perform op).chain.whence o = p.chain.whence o := by
  rcases p.perform_cases op with rfl | ⟨-, hchain⟩
  · exact ⟨h.commit, fun o ho => h.whence_commit_of_lt ho⟩
  · obtain ⟨hkept, hextends⟩ := h.toKept.perform op
    exact ⟨h.of_extends hkept hextends hchain, fun o _ => by rw [hchain]⟩

/-- Operations one after the other keep what the chain says about the committed text. -/
theorem Linked.run (h : p.Linked) (ops : List Operation) :
    (p.run ops).Linked ∧
      ∀ o < p.text.utf8ByteSize, (p.run ops).chain.whence o = p.chain.whence o := by
  induction ops generalizing p with
  | nil => exact ⟨h, fun _ _ => rfl⟩
  | cons op ops ih =>
    obtain ⟨hlinked, hsame⟩ := h.perform op
    obtain ⟨hlinked', hsame'⟩ := ih hlinked
    obtain ⟨t, ht⟩ := (h.toKept.perform op).2.committed
    refine ⟨hlinked', ?_⟩
    intro o ho
    have ho' : o < (p.perform op).text.utf8ByteSize := by
      rw [ht, String.utf8ByteSize_append]
      omega
    exact (hsame' o ho').trans (hsame o ho)

/-- An offset that is committed in the end has been so at first, or some revision adds it. -/
theorem exists_commit (p : Probe) (ops : List Operation) (ho : o < (p.run ops).text.utf8ByteSize) :
    o < p.text.utf8ByteSize ∨ ∃ before after, ops = before ++ .commit :: after ∧
      (p.run before).text.utf8ByteSize ≤ o ∧ o < (p.run before).size := by
  induction ops generalizing p with
  | nil => exact .inl ho
  | cons op ops ih =>
    rcases ih (p.perform op) ho with hlt | ⟨before, after, rfl, hle, hlt⟩
    · rcases p.perform_cases op with rfl | ⟨htext, -⟩
      · rcases Nat.lt_or_ge o p.text.utf8ByteSize with hold | hnew
        · exact .inl hold
        · refine .inr ⟨[], ops, rfl, hnew, ?_⟩
          exact Nat.lt_of_lt_of_eq hlt (String.utf8ByteSize_append ..)
      · rw [htext] at hlt
        exact .inl hlt
    · exact .inr ⟨op :: before, after, rfl, hle, hlt⟩

/-! ### The text that a revision adds -/

theorem lastBefore_marks_eq_none (h : ¬p.Marked o) :
    lastBefore o (markStretches p.text.utf8ByteSize p.markupFile p.marks) = none := by
  apply lastBefore_eq_none
  intro x hx
  obtain ⟨k, hk, hlt, rfl⟩ := mem_markStretches.mp hx
  exact Nat.lt_of_not_le fun hle => h ⟨k, hk, hlt, hle⟩

theorem Marked.exists_lastBefore (h : p.Marked o) :
    ∃ x, lastBefore o (markStretches p.text.utf8ByteSize p.markupFile p.marks) = some x := by
  obtain ⟨k, hk, hlt, hle⟩ := h
  exact ViewLint.exists_lastBefore (mem_markStretches.mpr ⟨k, hk, hlt, rfl⟩) hle

/-- In the end the chain says about the text that a revision adds what the marks of the revision
say. -/
theorem Linked.whence_chain (h : p.Linked) (after : List Operation) (hle : p.text.utf8ByteSize ≤ o)
    (hlt : o < p.size) :
    (p.commit.2.run after).chain.whence o =
      (lastBefore o (markStretches p.text.utf8ByteSize p.markupFile p.marks)).map
        (Stretch.whence o) := by
  have ho : o < p.commit.2.text.utf8ByteSize :=
    Nat.lt_of_lt_of_eq hlt (String.utf8ByteSize_append ..).symm
  rw [(h.commit.run after).2 o ho, h.whence_commit_of_le hle]

/-- The merged map goes on to older revisions. -/
theorem Kept.whence_merged_run (h : p.Kept) (after : List Operation) (hlt : o < p.size) :
    (p.commit.2.run after).merged.whence o =
      ((lastBefore o (markStretches p.text.utf8ByteSize p.markupFile p.marks)).or
        (lastBefore o p.merged.stretches)).map (Stretch.whence o) := by
  obtain ⟨hkept, hextends⟩ := h.commit.run after
  have ho : o < p.commit.2.text.utf8ByteSize :=
    Nat.lt_of_lt_of_eq hlt (String.utf8ByteSize_append ..).symm
  rw [hkept.whence_merged (Nat.lt_of_lt_of_le ho hextends.text_le),
    hextends.lastBefore_trail (Nat.lt_of_lt_of_le ho (Nat.le_add_right _ _)), h.trail_commit, trail,
    lastBefore_append]

/-- The merged map goes to the markup. -/
theorem Kept.source_of_mem (h : p.Kept) {x : Stretch} (hx : x ∈ p.merged.stretches) :
    x.source = p.markupFile := by
  obtain ⟨s, hs, rfl⟩ := List.mem_map.mp hx
  exact h.source _ (List.mem_of_getElem? (h.merged.wellFormed.getElem?_sources hs))

/-- Behind a mark of its revision an offset comes from the same place either way. -/
theorem Linked.whence_of_marked (h : p.Linked) (after : List Operation)
    (hle : p.text.utf8ByteSize ≤ o) (hlt : o < p.size) (hmarked : p.Marked o) :
    ∃ x, (p.commit.2.run after).chain.whence o = some x ∧
      (p.commit.2.run after).merged.whence o = some x ∧ x.source = p.markupFile := by
  obtain ⟨x, hx⟩ := hmarked.exists_lastBefore
  refine ⟨x.whence o, ?_, ?_, ?_⟩
  · rw [h.whence_chain after hle hlt, hx, Option.map_some]
  · rw [h.whence_merged_run after hlt, hx, Option.some_or, Option.map_some]
  · rw [x.source_whence]
    exact (InRow.stretch_bounds h.tidy (mem_of_lastBefore hx).1).2.2.2

/-- Before the marks of its revision an offset comes from nowhere by the chain, and at most from
where an older mark begins by the merged map. -/
theorem Linked.whence_of_not_marked (h : p.Linked) (after : List Operation)
    (hle : p.text.utf8ByteSize ≤ o) (hlt : o < p.size) (hmarked : ¬p.Marked o) :
    (p.commit.2.run after).chain.whence o = none ∧
      ∀ x, (p.commit.2.run after).merged.whence o = some x →
        x.source = p.markupFile ∧ x.exact = false := by
  have hnone := lastBefore_marks_eq_none hmarked
  constructor
  · rw [h.whence_chain after hle hlt, hnone, Option.map_none]
  · intro y hy
    rw [h.whence_merged_run after hlt, hnone, Option.none_or] at hy
    obtain ⟨x, hx, rfl⟩ := Option.map_eq_some_iff.mp hy
    have hmem := (mem_of_lastBefore hx).1
    have hstop := (h.merged.stretch_bounds hmem).2
    constructor
    · rw [x.source_whence, h.source_of_mem hmem]
    · rw [Stretch.whence, if_neg (Nat.not_lt.mpr (Nat.le_trans hstop hle))]

end Probe

/-- **Where the chain of revisions agrees with the merged map.**  Every offset of the committed text
has been added by some revision.  If a mark of that revision begins at the offset or before it, the
chain and the merged map lead to the same place of the markup, exactly or not.  Otherwise the chain
leads nowhere, and the merged map nowhere or to where an older mark begins.  So the two agree
exactly if there is such a mark, or if there is no older one either. -/
theorem chain_agrees_with_merged_iff (markupFile typeLibrary : String) (ops : List Operation)
    {o : Nat} (ho : o < ((Probe.initial markupFile typeLibrary).run ops).text.utf8ByteSize) :
    let p := (Probe.initial markupFile typeLibrary).run ops
    ∃ before after, ops = before ++ .commit :: after ∧
      let q := (Probe.initial markupFile typeLibrary).run before
      q.text.utf8ByteSize ≤ o ∧ o < q.size ∧
      (p.chain.whence o = p.merged.whence o ↔ q.Marked o ∨ p.merged.whence o = none) ∧
      (q.Marked o → ∃ x, p.chain.whence o = some x ∧ p.merged.whence o = some x ∧
        x.source = markupFile) ∧
      (¬q.Marked o → p.chain.whence o = none ∧
        ∀ x, p.merged.whence o = some x → x.source = markupFile ∧ x.exact = false) := by
  intro p
  obtain ⟨before, after, hops, hle, hlt⟩ :=
    ((Probe.initial markupFile typeLibrary).exists_commit ops ho).resolve_left (Nat.not_lt_zero o)
  refine ⟨before, after, hops, ?_⟩
  intro q
  obtain ⟨hq, -⟩ := (Probe.linked_initial markupFile typeLibrary).run before
  have hfile : q.markupFile = markupFile :=
    ((Probe.kept_initial markupFile typeLibrary).run before).2.markupFile
  have hp : p = q.commit.2.run after := by
    change (Probe.initial markupFile typeLibrary).run ops = _
    rw [hops, Probe.run, List.foldl_append]
    rfl
  rw [hp, ← hfile]
  refine ⟨hle, hlt, ?_⟩
  by_cases hmarked : q.Marked o
  · obtain ⟨x, hchain, hmerged, hsource⟩ := hq.whence_of_marked after hle hlt hmarked
    exact ⟨⟨fun _ => .inl hmarked, fun _ => hchain.trans hmerged.symm⟩,
      fun _ => ⟨x, hchain, hmerged, hsource⟩, fun h => absurd hmarked h⟩
  · obtain ⟨hchain, hmerged⟩ := hq.whence_of_not_marked after hle hlt hmarked
    refine ⟨?_, fun h => absurd h hmarked, fun _ => ⟨hchain, hmerged⟩⟩
    rw [hchain, eq_comm (a := none)]
    exact ⟨.inr, fun h => h.resolve_left hmarked⟩

/-- A blank behind a copied name of the same revision comes from the copy, either way. -/
theorem chain_agrees_with_merged_iff_grownProgram :
    let p := (Probe.initial "view.html" "lib").run (grownProgram ++ laterGrowth)
    let o := (scaffold "lib").utf8ByteSize + 14
    o < p.text.utf8ByteSize ∧ p.chain.whence o = some ⟨"view.html", 2, false⟩ ∧
    ∃ before after, grownProgram ++ laterGrowth = before ++ .commit :: after ∧
      let q := (Probe.initial "view.html" "lib").run before
      q.text.utf8ByteSize ≤ o ∧ o < q.size ∧ q.Marked o ∧ p.chain.whence o = p.merged.whence o := by
  intro p o
  have ho : o < p.text.utf8ByteSize := by decide +kernel
  have hchain : p.chain.whence o = some ⟨"view.html", 2, false⟩ := by decide +kernel
  obtain ⟨before, after, hops, hle, hlt, hiff, -, hnone⟩ :=
    chain_agrees_with_merged_iff "view.html" "lib" (grownProgram ++ laterGrowth) ho
  refine ⟨ho, hchain, before, after, hops, hle, hlt, ?_⟩
  have hmarked : ((Probe.initial "view.html" "lib").run before).Marked o := by
    by_contra hmarked
    have := (hnone hmarked).1
    change p.chain.whence o = none at this
    rw [hchain] at this
    cases this
  exact ⟨hmarked, hiff.mpr (.inl hmarked)⟩

/-- A line break that begins a revision comes from nowhere by the chain, and from the copy in the
revision before by the merged map. -/
theorem chain_differs_from_merged :
    let p := (Probe.initial "view.html" "lib").run (grownProgram ++ laterGrowth)
    let o := (scaffold "lib").utf8ByteSize + 15
    o < p.text.utf8ByteSize ∧ p.chain.translate o = none ∧ p.translate o = some ⟨0, 2, false⟩ := by
  decide +kernel

end ViewLint
