import ViewLint.Proofs.Probe.Revisions
import ViewLint.Proofs.SourceMap.Stretches

/-!
# Positions in a program never move

The trail of a program lists where its text comes from: the stretches of the merged map, and behind
them those of the marks that wait for the next revision.  Emitting text puts new stretches behind
the trail, and a revision leaves the trail as it is, because the merged map takes over all older
stretches unchanged and then those of the marks.  An offset is looked up in the part of the trail
that has been committed, so that later text and later revisions do not change what is found.

## Main definitions

* `Operation`, `Probe.perform`, `Probe.run` — what can be done with a program, step by step.
* `Probe.trail` — where the text of a program comes from.
* `Probe.Extends` — one program is another one with more text, whose trail goes on.

## Main results

* `Probe.Kept.trail_commit` — a revision keeps the trail.
* `Probe.Kept.perform`, `Probe.Kept.run` — one operation and all operations extend a program.
* `Probe.Kept.translate_eq` — translation looks up the trail.
* `positions_never_move` — the text and its places stay when a program goes on.
-/

namespace ViewLint

/-! ### Sources of compositions -/

theorem mem_intern {texts : List String} {text t : String} (h : t ∈ (intern texts text).2) :
    t ∈ texts ∨ t = text := by
  unfold intern at h
  split at h
  · exact .inl h
  · simpa using h

namespace SourceMap

variable {m previous : SourceMap}

theorem mem_sources_addStretch {x : Stretch} {t : String} (h : t ∈ (m.addStretch x).sources) :
    t ∈ m.sources ∨ t = x.source := by
  rw [addStretch, sources_addSegment] at h
  exact mem_intern h

/-- A composition has no sources but those of the earlier map, and those of the newer one that are
not the earlier text. -/
theorem mem_sources_mergeWith (hm : m.WellFormed) (hprevious : previous.WellFormed) {t : String}
    (ht : t ∈ (m.mergeWith previous).sources) :
    t ∈ previous.sources ∨ t ∈ m.sources ∧ t ≠ previous.file := by
  -- the pieces of one segment
  have hpieces : ∀ (offset first last : Nat) (ss : List Segment) (merged : SourceMap),
      (∀ s ∈ ss, s ∈ previous.segments.toList) →
      t ∈ (ss.foldl (addOverlap previous offset first last) merged).sources →
        t ∈ merged.sources ∨ t ∈ previous.sources := by
    intro offset first last ss
    induction ss with
    | nil => exact fun merged _ h => .inl h
    | cons s ss ih =>
      intro merged hss h
      rw [List.forall_mem_cons] at hss
      rcases ih _ hss.2 h with h | h
      · change t ∈ (merged.addStretch ⟨_, _, previous.sourceName s.source, _, _⟩).sources at h
        refine (mem_sources_addStretch h).imp_right ?_
        rintro rfl
        exact List.mem_of_getElem? (hprevious.getElem?_sources hss.1)
      · exact .inr h
  have hfold : ∀ (ss : List Segment) (merged : SourceMap), (∀ s ∈ ss, s ∈ m.segments.toList) →
      t ∈ (ss.foldl (m.addComposed previous) merged).sources →
        t ∈ merged.sources ∨ t ∈ previous.sources ∨ t ∈ m.sources ∧ t ≠ previous.file := by
    intro ss
    induction ss with
    | nil => exact fun merged _ h => .inl h
    | cons s ss ih =>
      intro merged hss h
      rw [List.forall_mem_cons] at hss
      rcases ih _ hss.2 h with h | h
      · unfold addComposed at h
        split at h
        · refine (hpieces _ _ _ _ _ ?_ h).imp_right .inl
          exact fun s hs => (overlapping_sublist previous _ _).mem hs
        · next hne =>
          change t ∈ (merged.addStretch (m.stretch s)).sources at h
          refine (mem_sources_addStretch h).imp_right ?_
          rintro rfl
          exact .inr ⟨List.mem_of_getElem? (hm.getElem?_sources hss.1),
            mt (hm.source_eq_iff hss.1 previous.file).mpr hne⟩
      · exact .inr h
  rw [mergeWith, ← Array.foldl_toList] at ht
  exact (hfold _ _ (fun _ hs => hs) ht).resolve_left List.not_mem_nil

/-- The stretches of a map that ends at or before an offset are not empty, and end there. -/
theorem Bounded.stretch_bounds {limit : Nat} (h : m.Bounded limit) {x : Stretch}
    (hx : x ∈ m.stretches) : x.start < x.stop ∧ x.stop ≤ limit := by
  obtain ⟨s, hs, rfl⟩ := List.mem_map.mp hx
  exact ⟨h.wellFormed.nonempty s hs, h.stop_le s hs⟩

end SourceMap

/-! ### The trail -/

/-- The stretch of a mark of a text that is pending behind `size` bytes. -/
def Mark.stretch (size : Nat) (file : String) (k : Mark) : Stretch :=
  ⟨size + k.start, size + k.stop, file, k.sourceStart, k.name⟩

/-- The stretches of some marks, of which empty ones do not count. -/
def markStretches (size : Nat) (file : String) (marks : List Mark) : List Stretch :=
  (marks.map (·.stretch size file)).filter (·.solid)

theorem markStretches_append (size : Nat) (file : String) (marks new : List Mark) :
    markStretches size file (marks ++ new) =
      markStretches size file marks ++ markStretches size file new := by
  simp [markStretches]

theorem mem_markStretches {size : Nat} {file : String} {marks : List Mark} {x : Stretch} :
    x ∈ markStretches size file marks ↔
      ∃ k ∈ marks, k.start < k.stop ∧ k.stretch size file = x := by
  simp only [markStretches, List.mem_filter, List.mem_map]
  constructor
  · rintro ⟨⟨k, hk, rfl⟩, hsolid⟩
    have : size + k.start < size + k.stop := of_decide_eq_true hsolid
    exact ⟨k, hk, by omega, rfl⟩
  · rintro ⟨k, hk, hlt, rfl⟩
    exact ⟨⟨k, hk, rfl⟩, decide_eq_true (Nat.add_lt_add_left hlt size)⟩

theorem InRow.stretch_bounds {first last size : Nat} {marks : List Mark}
    (h : InRow first last marks) {file : String} {x : Stretch}
    (hx : x ∈ markStretches size file marks) :
    size + first ≤ x.start ∧ x.start < x.stop ∧ x.stop ≤ size + last ∧ x.source = file := by
  obtain ⟨k, hk, hlt, rfl⟩ := mem_markStretches.mp hx
  obtain ⟨hfirst, -, hlast⟩ := h.bounds hk
  simp only [Mark.stretch, and_true]
  omega

namespace Probe

variable {p p' p'' : Probe} {t : String}

/-- The number of bytes of all text, committed or pending. -/
def size (p : Probe) : Nat := p.text.utf8ByteSize + p.pending.utf8ByteSize

/-- Where the text of a program comes from: what the merged map says of the committed text, and then
what the marks say of the pending one. -/
def trail (p : Probe) : List Stretch :=
  p.merged.stretches ++ markStretches p.text.utf8ByteSize p.markupFile p.marks

/-- The merged map is one of the committed text, and goes to the markup alone. -/
structure Kept (p : Probe) : Prop extends p.Sound where
  source : ∀ s ∈ p.merged.sources, s = p.markupFile

theorem kept_initial (markupFile typeLibrary : String) : (initial markupFile typeLibrary).Kept :=
  ⟨sound_initial markupFile typeLibrary, fun _ hs => nomatch hs⟩

/-! ### Revisions -/

theorem closed_foldl_marks {m : SourceMap} (h : m.Closed) {i : Nat} {file : String}
    (hi : m.sources[i]? = some file) (size : Nat) (marks : List Mark) :
    (marks.foldl (fun m k =>
      m.addSegment (size + k.start) (size + k.stop) i k.sourceStart k.name) m).stretches =
      m.stretches ++ markStretches size file marks := by
  induction marks generalizing m with
  | nil => simp [markStretches]
  | cons k marks ih =>
    obtain ⟨hclosed, hstretches⟩ :=
      h.addSegment hi (size + k.start) (size + k.stop) k.sourceStart k.name
    have hsources :
        (m.addSegment (size + k.start) (size + k.stop) i k.sourceStart k.name).sources[i]? =
          some file := by
      rw [SourceMap.sources_addSegment]
      exact hi
    rw [List.foldl_cons, ih hclosed hsources, hstretches, List.append_assoc]
    congr 1
    exact (markStretches_append size file [k] marks).symm

/-- The stretch of the next map that goes to the revision before, if there is one. -/
def backStretches (p : Probe) : List Stretch :=
  match p.revisions with
  | 0 => []
  | n + 1 => [Stretch.mk 0 p.text.utf8ByteSize (p.revisionName n) 0 none].filter (·.solid)

theorem stretches_nextMap (p : Probe) :
    p.nextMap.stretches =
      p.backStretches ++ markStretches p.text.utf8ByteSize p.markupFile p.marks := by
  have hempty := SourceMap.closed_empty (p.revisionName p.revisions)
  have hback : p.backMap.Closed ∧ p.backMap.stretches = p.backStretches := by
    unfold backMap backStretches
    cases hrevisions : p.revisions with
    | zero =>
      rw [hrevisions] at hempty
      exact ⟨hempty, rfl⟩
    | succ n =>
      rw [hrevisions] at hempty
      exact hempty.addStretch ⟨0, p.text.utf8ByteSize, p.revisionName n, 0, none⟩
  obtain ⟨hclosed, hstretches⟩ := hback.1.addSource p.markupFile
  rw [nextMap_eq, closed_foldl_marks hclosed (SourceMap.getElem?_addSource _ _), hstretches,
    hback.2]

theorem sources_nextMap (p : Probe) {s : String} (hs : s ∈ p.nextMap.sources) :
    s = p.markupFile ∨ ∃ n, p.revisions = n + 1 ∧ s = p.revisionName n := by
  have hfold : ∀ (size i : Nat) (marks : List Mark) (m : SourceMap),
      (marks.foldl (fun m k => m.addSegment (size + k.start) (size + k.stop) i k.sourceStart k.name)
        m).sources = m.sources := by
    intro size i marks
    induction marks with
    | nil => exact fun m => rfl
    | cons k marks ih =>
      intro m
      rw [List.foldl_cons, ih, SourceMap.sources_addSegment]
  rw [nextMap_eq, hfold] at hs
  rcases mem_intern hs with hs | rfl
  · right
    unfold backMap at hs
    split at hs
    · cases hs
    · next n hn =>
      change s ∈ (SourceMap.addStretch _ ⟨0, _, p.revisionName n, 0, none⟩).sources at hs
      rcases SourceMap.mem_sources_addStretch hs with hs | rfl
      · cases hs
      · exact ⟨n, hn, rfl⟩
  · exact .inl rfl

/-- What a stretch of a whole text takes over of the stretches of that text is all of them. -/
theorem flatMap_through_whole {file : String} {size : Nat} {xs : List Stretch}
    (h : ∀ x ∈ xs, x.start < x.stop ∧ x.stop ≤ size) :
    ([Stretch.mk 0 size file 0 none].filter (·.solid)).flatMap (Stretch.through file xs) = xs := by
  cases size with
  | zero =>
    -- a text of no bytes has no stretches
    have hnil : xs = [] := List.eq_nil_iff_forall_not_mem.mpr fun x hx => by
      have := h x hx
      omega
    rw [hnil]
    rfl
  | succ n =>
    have hsolid : (Stretch.mk 0 (n + 1) file 0 none).solid = true := decide_eq_true (Nat.succ_pos n)
    have hcut : ∀ x ∈ xs, (Stretch.mk 0 (n + 1) file 0 none).cut x = x := by
      intro x hx
      obtain ⟨-, hstop⟩ := h x hx
      obtain ⟨start, stop, source, sourceStart, name⟩ := x
      simp only [Stretch.cut, Stretch.mk.injEq, and_true, true_and]
      dsimp only at hstop
      omega
    rw [List.filter_cons_of_pos hsolid, List.filter_nil, List.flatMap_singleton, Stretch.through,
      if_pos rfl, List.map_congr_left hcut, List.map_id', List.filter_eq_self]
    intro x hx
    exact decide_eq_true (h x hx).1

/-- Stretches to other texts than the earlier one stay as they are. -/
theorem flatMap_through_of_ne {file : String} {earlier xs : List Stretch}
    (h : ∀ x ∈ xs, x.source ≠ file) : xs.flatMap (Stretch.through file earlier) = xs := by
  induction xs with
  | nil => rfl
  | cons x xs ih =>
    rw [List.forall_mem_cons] at h
    rw [List.flatMap_cons, ih h.2, Stretch.through, if_neg h.1, List.singleton_append]

/-- A revision keeps the trail: the merged map takes over what it had, and then the marks. -/
theorem Kept.trail_commit (h : p.Kept) : p.commit.2.trail = p.trail := by
  change (if p.revisions = 0 then p.nextMap else p.nextMap.mergeWith p.merged).stretches ++ [] = _
  rw [List.append_nil, trail]
  have hnext := (sends_nextMap h.tidy).1.wellFormed
  have hbounds : ∀ x ∈ p.merged.stretches, x.start < x.stop ∧ x.stop ≤ p.text.utf8ByteSize :=
    fun x hx => h.merged.stretch_bounds hx
  cases hrevisions : p.revisions with
  | zero =>
    -- nothing has been committed, so the merged map is empty
    have hnil : p.merged.stretches = [] := by
      apply List.eq_nil_iff_forall_not_mem.mpr
      intro x hx
      have := hbounds x hx
      rw [h.fresh hrevisions, String.utf8ByteSize_empty] at this
      omega
    rw [if_pos rfl, stretches_nextMap, backStretches, hrevisions, hnil]
  | succ n =>
    have hmarks : ∀ x ∈ markStretches p.text.utf8ByteSize p.markupFile p.marks,
        x.source ≠ p.revisionName n := by
      intro x hx
      rw [(InRow.stretch_bounds h.tidy hx).2.2.2]
      exact (p.revisionName_ne_markupFile n).symm
    rw [if_neg (Nat.succ_ne_zero n), SourceMap.stretches_mergeWith hnext h.merged.wellFormed,
      stretches_nextMap, backStretches, hrevisions, h.file n hrevisions, List.flatMap_append,
      flatMap_through_whole hbounds, flatMap_through_of_ne hmarks]

theorem Kept.commit (h : p.Kept) : p.commit.2.Kept := by
  refine ⟨h.toSound.commit, ?_⟩
  intro s hs
  change s ∈ (if p.revisions = 0 then p.nextMap else p.nextMap.mergeWith p.merged).sources at hs
  change s = p.markupFile
  have hnext := (sends_nextMap h.tidy).1.wellFormed
  split at hs
  · next hzero =>
    refine (p.sources_nextMap hs).resolve_right ?_
    rintro ⟨n, hn, -⟩
    omega
  · rcases SourceMap.mem_sources_mergeWith hnext h.merged.wellFormed hs with hs | ⟨hs, hne⟩
    · exact h.source s hs
    · refine (p.sources_nextMap hs).resolve_right ?_
      rintro ⟨n, hn, rfl⟩
      exact hne (h.file n hn).symm

/-! ### Going on -/

/-- A program with more text behind all that it has, and with what is said of that text behind its
trail. -/
structure Extends (p p' : Probe) : Prop where
  markupFile : p'.markupFile = p.markupFile
  /-- All text, committed or pending. -/
  whole : ∃ t, p'.text ++ p'.pending = p.text ++ p.pending ++ t
  committed : ∃ t, p'.text = p.text ++ t
  trail : ∃ new, p'.trail = p.trail ++ new ∧ ∀ x ∈ new, p.size ≤ x.start

theorem Extends.refl (p : Probe) : p.Extends p :=
  ⟨rfl, ⟨"", String.append_empty.symm⟩, ⟨"", String.append_empty.symm⟩,
    ⟨[], (List.append_nil _).symm, fun _ hx => nomatch hx⟩⟩

theorem Extends.text_le (h : p.Extends p') : p.text.utf8ByteSize ≤ p'.text.utf8ByteSize := by
  obtain ⟨t, ht⟩ := h.committed
  rw [ht, String.utf8ByteSize_append]
  exact Nat.le_add_right _ _

/-- What is said of more text says nothing about the text that was there. -/
theorem Extends.lastBefore_trail (h : p.Extends p') {o : Nat} (ho : o < p.size) :
    lastBefore o p'.trail = lastBefore o p.trail := by
  obtain ⟨new, hnew, hstart⟩ := h.trail
  rw [hnew]
  exact lastBefore_append_of_lt fun x hx => Nat.lt_of_lt_of_le ho (hstart x hx)

theorem Extends.size_le (h : p.Extends p') : p.size ≤ p'.size := by
  obtain ⟨t, ht⟩ := h.whole
  have hsize := congrArg String.utf8ByteSize ht
  simp only [String.utf8ByteSize_append] at hsize
  unfold size
  omega

theorem Extends.trans (h : p.Extends p') (h' : p'.Extends p'') : p.Extends p'' := by
  obtain ⟨t, ht⟩ := h.whole
  obtain ⟨t', ht'⟩ := h'.whole
  obtain ⟨c, hc⟩ := h.committed
  obtain ⟨c', hc'⟩ := h'.committed
  obtain ⟨new, hnew, hstart⟩ := h.trail
  obtain ⟨new', hnew', hstart'⟩ := h'.trail
  refine ⟨h'.markupFile.trans h.markupFile, ⟨t ++ t', ?_⟩, ⟨c ++ c', ?_⟩, new ++ new', ?_, ?_⟩
  · rw [ht', ht, String.append_assoc]
  · rw [hc', hc, String.append_assoc]
  · rw [hnew', hnew, List.append_assoc]
  · intro x hx
    rcases List.mem_append.mp hx with hx | hx
    · exact hstart x hx
    · exact Nat.le_trans h.size_le (hstart' x hx)

theorem Emits.kept (h : Emits p p' t) (hp : p.Kept) : p'.Kept := by
  refine ⟨h.sound hp.toSound, ?_⟩
  rw [h.merged, h.markupFile]
  exact hp.source

/-- Emitted text is behind all other text, and so are its marks. -/
theorem Emits.extends (h : Emits p p' t) (hp : p.Kept) : p.Extends p' := by
  obtain ⟨new, hnew, hrow⟩ := h.marks hp.tidy
  refine ⟨h.markupFile, ⟨t, ?_⟩, ⟨"", ?_⟩, ?_⟩
  · rw [h.text, h.pending, String.append_assoc]
  · rw [h.text, String.append_empty]
  · refine ⟨markStretches p.text.utf8ByteSize p.markupFile new, ?_, ?_⟩
    · rw [trail, h.merged, h.text, h.markupFile, hnew, markStretches_append, ← List.append_assoc,
        trail]
    · intro x hx
      exact (hrow.stretch_bounds hx).1

theorem Kept.extends_commit (h : p.Kept) : p.Extends p.commit.2 := by
  refine ⟨rfl, ⟨"", ?_⟩, ⟨p.pending, rfl⟩, [], ?_, fun _ hx => nomatch hx⟩
  · change p.text ++ p.pending ++ "" = _
    rfl
  · rw [h.trail_commit, List.append_nil]

end Probe

/-! ### Operations -/

/-- What can be done with a program. -/
inductive Operation where
  | emit (text : String)
  | emitMapped (text : String) (location : Location) (name : Option String)
  | emitImports (imports : List Import)
  | emitHandlers (handlers : List String)
  | declare (content : Declaration)
  | commit
  deriving DecidableEq, Repr

namespace Probe

variable {p : Probe}

/-- The program after an operation. -/
def perform (p : Probe) : Operation → Probe
  | .emit text => p.emit text
  | .emitMapped text location name => p.emitMapped text location name
  | .emitImports imports => p.emitImports imports
  | .emitHandlers handlers => p.emitHandlers handlers
  | .declare content => p.declare content
  | .commit => p.commit.2

/-- The program after some operations. -/
def run (p : Probe) (ops : List Operation) : Probe := ops.foldl perform p

theorem Kept.declare (h : p.Kept) (content : Declaration) :
    (p.declare content).Kept ∧ p.Extends (p.declare content) := by
  -- the list of declarations is no part of what is kept
  have hlisted : { p with declarations := p.declarations ++ [content] }.Kept :=
    ⟨⟨h.tidy, h.merged, h.file, h.fresh⟩, h.source⟩
  have hextends := (emits_declare p content).extends hlisted
  exact ⟨(emits_declare p content).kept hlisted,
    ⟨hextends.markupFile, hextends.whole, hextends.committed, hextends.trail⟩⟩

/-- An operation extends a program. -/
theorem Kept.perform (h : p.Kept) (op : Operation) :
    (p.perform op).Kept ∧ p.Extends (p.perform op) := by
  cases op with
  | emit text => exact ⟨(emits_emit p text).kept h, (emits_emit p text).extends h⟩
  | emitMapped text location name =>
    have hemits := emits_emitAt p text location.start location.size name
    exact ⟨hemits.kept h, hemits.extends h⟩
  | emitImports imports =>
    obtain ⟨t, ht⟩ := exists_emits_emitImports p imports
    exact ⟨ht.kept h, ht.extends h⟩
  | emitHandlers handlers =>
    obtain ⟨t, ht⟩ := exists_emits_emitHandlers p handlers
    exact ⟨ht.kept h, ht.extends h⟩
  | declare content => exact h.declare content
  | commit => exact ⟨h.commit, h.extends_commit⟩

/-- Operations one after the other extend a program. -/
theorem Kept.run (h : p.Kept) (ops : List Operation) :
    (p.run ops).Kept ∧ p.Extends (p.run ops) := by
  induction ops generalizing p with
  | nil => exact ⟨h, .refl p⟩
  | cons op ops ih =>
    obtain ⟨hkept, hextends⟩ := h.perform op
    obtain ⟨hkept', hextends'⟩ := ih hkept
    exact ⟨hkept', hextends.trans hextends'⟩

/-! ### Translation -/

/-- A merged map with a segment has the markup as its only source. -/
theorem Kept.sources_eq (h : p.Kept) {s : Segment} (hs : s ∈ p.merged.segments.toList) :
    p.merged.sources = [p.markupFile] := by
  have hsource := h.source
  have hnodup := h.merged.wellFormed.sources_nodup
  have hlt := h.merged.wellFormed.source_lt s hs
  cases hall : p.merged.sources with
  | nil =>
    rw [hall] at hlt
    exact absurd hlt (Nat.not_lt_zero _)
  | cons first rest =>
    rw [hall] at hsource hnodup
    rw [List.forall_mem_cons] at hsource
    rw [List.nodup_cons] at hnodup
    cases rest with
    | nil => rw [hsource.1]
    | cons second rest =>
      have hsame : second = first := by
        rw [hsource.2 second (List.mem_cons_self ..), hsource.1]
      exact absurd (hsame ▸ List.mem_cons_self ..) hnodup.1

/-- The marks of the pending text say nothing about the committed text. -/
theorem Kept.lastBefore_trail (h : p.Kept) {o : Nat} (ho : o < p.text.utf8ByteSize) :
    lastBefore o p.trail = lastBefore o p.merged.stretches := by
  refine lastBefore_append_of_lt fun x hx => ?_
  have hstart := (InRow.stretch_bounds h.tidy hx).1
  omega

/-- An offset of the committed text comes from where the trail says. -/
theorem Kept.translate_eq (h : p.Kept) {o : Nat} (ho : o < p.text.utf8ByteSize) :
    p.translate o = (lastBefore o p.trail).map (Stretch.place [p.markupFile] o) := by
  rw [translate, h.merged.wellFormed.translate_eq, h.lastBefore_trail ho]
  cases hfound : lastBefore o p.merged.stretches with
  | none => rfl
  | some x =>
    -- the markup is the only source, so that its number is zero
    obtain ⟨hx, -⟩ := mem_of_lastBefore hfound
    obtain ⟨s, hs, rfl⟩ := List.mem_map.mp hx
    rw [h.sources_eq hs]

/-- A place that an offset comes from is one of the markup. -/
theorem Kept.source_of_translate (h : p.Kept) {o : Nat} {place : Place}
    (hplace : p.translate o = some place) :
    p.merged.sources[place.source]? = some p.markupFile := by
  rw [translate, h.merged.wellFormed.translate_eq] at hplace
  obtain ⟨x, hx, rfl⟩ := Option.map_eq_some_iff.mp hplace
  obtain ⟨s, hs, rfl⟩ := List.mem_map.mp (mem_of_lastBefore hx).1
  have hget := h.merged.wellFormed.getElem?_sources hs
  have hname : p.merged.sourceName s.source = p.markupFile :=
    h.source _ (List.mem_of_getElem? hget)
  have hnumber : (Stretch.place p.merged.sources o (p.merged.stretch s)).source =
      p.merged.sources.idxOf p.markupFile := by
    rw [Stretch.place, ← hname]
    split <;> rfl
  rw [hnumber, List.getElem?_idxOf (hname ▸ List.mem_of_getElem? hget)]

/-- What has been committed is found again when a program goes on. -/
theorem Kept.translate_extends {p' : Probe} (h : p.Kept) (h' : p'.Kept) (hextends : p.Extends p')
    {o : Nat} (ho : o < p.text.utf8ByteSize) : p'.translate o = p.translate o := by
  have hsize : o < p.size := Nat.lt_of_lt_of_le ho (Nat.le_add_right _ _)
  rw [h.translate_eq ho, h'.translate_eq (Nat.lt_of_lt_of_le ho hextends.text_le),
    hextends.lastBefore_trail hsize, hextends.markupFile]

end Probe

/-- **Positions in a program never move.**  Whatever has been done with a program, and whatever is
done with it afterwards: the committed text stays at the beginning of the committed text, and each
of its offsets comes from the same place as before, found in a mark or between two of them.  No
program comes from anything but the markup. -/
theorem positions_never_move (markupFile typeLibrary : String) (before more : List Operation) :
    let p := (Probe.initial markupFile typeLibrary).run before
    let p' := p.run more
    (∃ t, p'.text = p.text ++ t) ∧
    (∀ o, o < p.text.utf8ByteSize → p'.translate o = p.translate o) ∧
    (∀ source ∈ p.merged.sources, source = markupFile) ∧
    ∀ o place, p.translate o = some place → p.merged.sources[place.source]? = some markupFile := by
  intro p p'
  obtain ⟨hp, hstart⟩ := (Probe.kept_initial markupFile typeLibrary).run before
  obtain ⟨hp', hextends⟩ := hp.run more
  have hfile : p.markupFile = markupFile := hstart.markupFile
  refine ⟨hextends.committed, ?_, ?_, ?_⟩
  · intro o ho
    exact hp.translate_extends hp' hextends ho
  · intro source hsource
    rw [← hfile]
    exact hp.source source hsource
  · intro o place hplace
    rw [← hfile]
    exact hp.source_of_translate hplace

/-- A copied name with a blank behind it, committed. -/
def grownProgram : List Operation :=
  [.emit "const a = ", .emitMapped "name" ⟨⟨1, 3⟩, ⟨1, 7⟩, 2, 6⟩ none, .emit " ", .commit]

/-- Two more copies, of which one is committed with a byte of its own before it. -/
def laterGrowth : List Operation :=
  [.emit "\n", .emitMapped "title" ⟨⟨1, 9⟩, ⟨1, 14⟩, 8, 13⟩ none, .commit,
    .emitMapped "name" ⟨⟨1, 3⟩, ⟨1, 7⟩, 2, 6⟩ none]

theorem positions_never_move_grownProgram :
    let p := (Probe.initial "view.html" "lib").run grownProgram
    let start := (scaffold "lib").utf8ByteSize
    (p.run laterGrowth).translate start = none ∧
    (p.run laterGrowth).translate (start + 11) = some ⟨0, 3, true⟩ ∧
    (p.run laterGrowth).translate (start + 14) = some ⟨0, 2, false⟩ ∧
    p.merged.sources = ["view.html"] := by
  intro p start
  obtain ⟨-, hsame, -, -⟩ := positions_never_move "view.html" "lib" grownProgram laterGrowth
  have hsize : p.text.utf8ByteSize = start + 15 := by decide +kernel
  refine ⟨?_, ?_, ?_, by decide +kernel⟩
  · -- the text before the first copy comes from nowhere
    rw [hsame start (by change _ < p.text.utf8ByteSize; omega)]
    decide +kernel
  · rw [hsame (start + 11) (by change _ < p.text.utf8ByteSize; omega)]
    decide +kernel
  · -- the blank comes from where the copy before it begins
    rw [hsame (start + 14) (by change _ < p.text.utf8ByteSize; omega)]
    decide +kernel

end ViewLint
