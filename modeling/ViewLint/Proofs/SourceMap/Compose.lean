import Mathlib.Data.List.MinMax
import Mathlib.Data.List.Nodup
import Mathlib.Order.Nat
import ViewLint.Proofs.SourceMap.Lookup

/-!
# Composing source maps

A composed map is built from the left to the right.  A segment of the newer map that goes to the
older text is cut at the borders of the segments there; every piece goes where the older segment
sends it.  So the composed map translates an offset exactly if the two maps do so one after the
other.

## Main definitions

* `SourceMap.Bounded` — a well-formed map whose segments end at or before an offset.
* `SourceMap.Appends` — what a step of the composition adds to such a map.
* `Chain.ExactAt` — an offset is translated exactly through a chain of maps.

## Main results

* `SourceMap.appends_foldl` — steps that follow one another.
* `SourceMap.appends_addComposed` — what a segment of the newer map becomes.
* `mergeWith_composes` — composition of maps, and of chains of maps.
-/

namespace ViewLint

/-! ### Numbered texts -/

theorem getElem?_intern (texts : List String) (text : String) :
    (intern texts text).2[(intern texts text).1]? = some text := by
  unfold intern
  split
  · next i hi =>
    obtain ⟨hlt, heq, -⟩ := List.idxOf?_eq_some_iff.mp hi
    rw [List.getElem?_eq_getElem hlt, heq]
  · exact List.getElem?_concat_length

theorem prefix_intern (texts : List String) (text : String) :
    texts <+: (intern texts text).2 := by
  unfold intern
  split
  · exact List.prefix_refl texts
  · exact List.prefix_append texts [text]

theorem nodup_intern {texts : List String} (h : texts.Nodup) (text : String) :
    (intern texts text).2.Nodup := by
  unfold intern
  split
  · exact h
  · next hnone =>
    rw [← List.concat_eq_append]
    exact h.concat (List.idxOf?_eq_none_iff.mp hnone)

namespace SourceMap

/-- A well-formed map whose segments end at or before an offset. -/
structure Bounded (m : SourceMap) (limit : Nat) : Prop where
  wellFormed : m.WellFormed
  stop_le : ∀ s ∈ m.segments.toList, s.stop ≤ limit

variable {m previous : SourceMap}

theorem Bounded.mono {limit limit' : Nat} (h : m.Bounded limit) (hle : limit ≤ limit') :
    m.Bounded limit' :=
  ⟨h.wellFormed, fun s hs => Nat.le_trans (h.stop_le s hs) hle⟩

/-! ### One more piece -/

theorem getElem?_addSource (m : SourceMap) (source : String) :
    (m.addSource source).2.sources[(m.addSource source).1]? = some source :=
  getElem?_intern m.sources source

/-- The sources that are there keep their numbers. -/
theorem getElem?_sources_addSource (m : SourceMap) (source : String) {i : Nat}
    (hi : i < m.sources.length) : (m.addSource source).2.sources[i]? = m.sources[i]? := by
  obtain ⟨more, hmore⟩ := prefix_intern m.sources source
  change (intern m.sources source).2[i]? = m.sources[i]?
  rw [← hmore, List.getElem?_append_left hi]

theorem Bounded.addSource {limit : Nat} (h : m.Bounded limit) (source : String) :
    (m.addSource source).2.Bounded limit := by
  have hle : m.sources.length ≤ (m.addSource source).2.sources.length :=
    (prefix_intern m.sources source).length_le
  refine ⟨⟨h.wellFormed.nonempty, h.wellFormed.ordered, ?_, h.wellFormed.name_lt, ?_⟩, h.stop_le⟩
  · intro s hs
    exact Nat.lt_of_lt_of_le (h.wellFormed.source_lt s hs) hle
  · exact nodup_intern h.wellFormed.sources_nodup source

theorem WellFormed.sends_addSource (h : m.WellFormed) (source : String) {o p : Nat} {t : String} :
    (m.addSource source).2.Sends o t p ↔ m.Sends o t p := by
  unfold Sends
  refine exists_congr fun s => and_congr_right fun hs => ?_
  rw [getElem?_sources_addSource m source (h.source_lt s hs)]

theorem addName_spec (m : SourceMap) (name : Option String) :
    (m.addName name).2.sources = m.sources ∧ (m.addName name).2.segments = m.segments ∧
      m.names.length ≤ (m.addName name).2.names.length ∧
      ∀ k, (m.addName name).1 = some k → k < (m.addName name).2.names.length := by
  cases name with
  | none =>
    refine ⟨rfl, rfl, Nat.le_refl _, ?_⟩
    intro k hk
    cases hk
  | some name =>
    refine ⟨rfl, rfl, (prefix_intern m.names name).length_le, ?_⟩
    intro k hk
    cases hk
    exact (List.getElem?_eq_some_iff.mp (getElem?_intern m.names name)).1

/-- A function of maps appends to a map that ends at or before `start` what sends the offsets that
`P` says; the map then ends at or before `stop`. -/
def Appends (f : SourceMap → SourceMap) (start stop : Nat) (P : Nat → String → Nat → Prop) :
    Prop :=
  ∀ m limit, m.Bounded limit → limit ≤ start →
    (f m).Bounded stop ∧ ∀ o t p, (f m).Sends o t p ↔ m.Sends o t p ∨ P o t p

theorem Appends.congr {f : SourceMap → SourceMap} {start stop stop' : Nat}
    {P Q : Nat → String → Nat → Prop} (h : Appends f start stop P) (hle : stop ≤ stop')
    (hPQ : ∀ o t p, P o t p ↔ Q o t p) : Appends f start stop' Q := by
  intro m limit hm hlimit
  obtain ⟨hbounded, hsends⟩ := h m limit hm hlimit
  refine ⟨hbounded.mono hle, ?_⟩
  intro o t p
  rw [hsends, hPQ]

theorem Bounded.addSegment {limit start stop i sourceStart : Nat} {source : String}
    (h : m.Bounded limit) (hlimit : limit ≤ start) (hi : m.sources[i]? = some source)
    (name : Option String) :
    (m.addSegment start stop i sourceStart name).Bounded (max start stop) ∧
      ∀ o t p, (m.addSegment start stop i sourceStart name).Sends o t p ↔
        m.Sends o t p ∨
          t = source ∧ start ≤ o ∧ o < stop ∧ p = sourceStart + (o - start) := by
  unfold SourceMap.addSegment
  split
  · -- an empty segment is left out
    next hempty =>
    refine ⟨h.mono (Nat.le_trans hlimit (Nat.le_max_left start stop)), ?_⟩
    intro o t p
    refine (or_iff_left ?_).symm
    rintro ⟨-, hstart, hstop, -⟩
    omega
  · next hne =>
    obtain ⟨hsources, hsegments, hnames, hname⟩ := addName_spec m name
    generalize m.addName name = r at hsources hsegments hnames hname ⊢
    obtain ⟨k, m'⟩ := r
    dsimp only at hsources hsegments hnames hname ⊢
    have hwf := h.wellFormed
    constructor
    · refine ⟨⟨?_, ?_, ?_, ?_, ?_⟩, ?_⟩ <;>
        simp only [hsegments, hsources, Array.toList_push, List.forall_mem_append,
          List.forall_mem_singleton, List.pairwise_append, List.pairwise_singleton, true_and]
      · exact ⟨hwf.nonempty, Nat.lt_of_not_le hne⟩
      · exact ⟨hwf.ordered, fun s hs => Nat.le_trans (h.stop_le s hs) hlimit⟩
      · exact ⟨hwf.source_lt, (List.getElem?_eq_some_iff.mp hi).1⟩
      · exact ⟨fun s hs j hj => Nat.lt_of_lt_of_le (hwf.name_lt s hs j hj) hnames, hname⟩
      · exact hwf.sources_nodup
      · refine ⟨fun s hs => ?_, Nat.le_max_right start stop⟩
        exact Nat.le_trans (h.stop_le s hs) (Nat.le_trans hlimit (Nat.le_max_left start stop))
    · intro o t p
      unfold Sends
      rw [hsegments, hsources, Array.toList_push]
      simp only [List.mem_append, List.mem_singleton, or_and_right, exists_or, exists_eq_left, hi,
        Segment.Sends, Option.some_inj, eq_comm]

/-- A segment to a source by its name sends the offsets that it holds. -/
theorem appends_addSegment (start stop sourceStart : Nat) (source : String)
    (name : Option String) :
    Appends
      (fun m =>
        (m.addSource source).2.addSegment start stop (m.addSource source).1 sourceStart name)
      start (max start stop)
      (fun o t p => t = source ∧ start ≤ o ∧ o < stop ∧ p = sourceStart + (o - start)) := by
  intro m limit h hlimit
  obtain ⟨hbounded, hsends⟩ :=
    (h.addSource source).addSegment hlimit (getElem?_addSource m source) name
  refine ⟨hbounded, ?_⟩
  intro o t p
  rw [hsends, h.wellFormed.sends_addSource]

/-- What is appended for one segment after the other, each from where the one before it ends. -/
theorem appends_foldl {f : SourceMap → Segment → SourceMap} {low high : Segment → Nat}
    {P : Segment → Nat → String → Nat → Prop} {ss : List Segment} {start stop : Nat}
    (hstep : ∀ s ∈ ss, Appends (f · s) (low s) (high s) (P s))
    (hordered : ss.Pairwise fun s t => high s ≤ low t)
    (hlow : ∀ s ∈ ss, start ≤ low s) (hhigh : ∀ s ∈ ss, high s ≤ stop) (hle : start ≤ stop) :
    Appends (ss.foldl f ·) start stop (fun o t p => ∃ s ∈ ss, P s o t p) := by
  intro m limit h hlimit
  induction ss generalizing m limit start with
  | nil =>
    refine ⟨h.mono (Nat.le_trans hlimit hle), ?_⟩
    intro o t p
    simp
  | cons s ss ih =>
    rw [List.forall_mem_cons] at hstep hlow hhigh
    rw [List.pairwise_cons] at hordered
    obtain ⟨hbounded, hsends⟩ := hstep.1 m limit h (Nat.le_trans hlimit hlow.1)
    obtain ⟨hbounded', hsends'⟩ :=
      ih hstep.2 hordered.2 hordered.1 hhigh.2 hhigh.1 (f m s) (high s) hbounded (Nat.le_refl _)
    refine ⟨hbounded', ?_⟩
    intro o t p
    calc ((s :: ss).foldl f m).Sends o t p
        ↔ (f m s).Sends o t p ∨ ∃ s' ∈ ss, P s' o t p := hsends' o t p
      _ ↔ (m.Sends o t p ∨ P s o t p) ∨ ∃ s' ∈ ss, P s' o t p := or_congr_left (hsends o t p)
      _ ↔ m.Sends o t p ∨ ∃ s' ∈ s :: ss, P s' o t p := by
        rw [List.exists_mem_cons_iff, or_assoc]

/-! ### The pieces of a segment -/

theorem WellFormed.getElem?_sources (h : m.WellFormed) {s : Segment}
    (hs : s ∈ m.segments.toList) : m.sources[s.source]? = some (m.sourceName s.source) := by
  have hlt := h.source_lt s hs
  rw [sourceName, List.getElem?_eq_getElem hlt, Option.getD_some]

theorem overlapping_sublist (m : SourceMap) (first last : Nat) :
    (m.overlapping first last).Sublist m.segments.toList :=
  (List.takeWhile_sublist _).trans (List.drop_sublist _ _)

theorem start_lt_of_mem_overlapping {first last : Nat} {s : Segment}
    (hs : s ∈ m.overlapping first last) : s.start < last := by
  have hlt := List.mem_takeWhile_imp hs
  exact of_decide_eq_true hlt

/-- The segments that meet some bytes are all those that hold one of them. -/
theorem WellFormed.mem_overlapping (h : m.WellFormed) {first last q p : Nat} {s : Segment}
    (hs : s ∈ m.segments.toList) (hsends : s.Sends q p) (hfirst : first ≤ q) (hlast : q < last) :
    s ∈ m.overlapping first last := by
  obtain ⟨hstart, hstop, -⟩ := hsends
  rw [overlapping, bisect_eq_length_takeWhile (h.pairwise_stop first), drop_length_takeWhile]
  -- the segment ends behind the first byte, so that it is not dropped
  have hkept : s ∈ m.segments.toList.dropWhile fun s => s.stop ≤ first := by
    rw [← List.takeWhile_append_dropWhile (p := fun s => decide (s.stop ≤ first))
      (l := m.segments.toList), List.mem_append] at hs
    refine hs.resolve_left fun hmem => ?_
    have hle := List.mem_takeWhile_imp hmem
    rw [decide_eq_true_eq] at hle
    omega
  refine mem_takeWhile_of_pairwise ?_ hkept (decide_eq_true (by omega))
  refine ((h.pairwise_start (last - 1)).sublist (List.dropWhile_sublist _)).imp ?_
  intro s t hst
  rw [decide_eq_true_eq, decide_eq_true_eq] at hst ⊢
  omega

/-- The part that a segment at `offset` has in common with a segment of the earlier text. -/
theorem WellFormed.appends_addOverlap (h : previous.WellFormed) {s : Segment}
    (hs : s ∈ previous.segments.toList) (offset first last : Nat) :
    Appends (addOverlap previous offset first last · s) (offset + (max first s.start - first))
      (offset + (max (max first s.start) (min last s.stop) - first))
      (fun o t p => (offset ≤ o ∧ o < offset + (last - first)) ∧
        previous.sources[s.source]? = some t ∧ s.Sends (first + (o - offset)) p) := by
  refine (appends_addSegment (offset + (max first s.start - first))
    (offset + (min last s.stop - first)) (s.sourceStart + (max first s.start - s.start))
    (previous.sourceName s.source) (previous.segmentName? s)).congr (by omega) ?_
  intro o t p
  rw [h.getElem?_sources hs, Option.some_inj, Segment.Sends]
  constructor
  · -- the common part begins at the larger start, and ends at the smaller end
    rintro ⟨rfl, hstart, hstop, rfl⟩
    refine ⟨?_, rfl, ?_⟩ <;> omega
  · rintro ⟨hmem, rfl, hstart, hstop, rfl⟩
    refine ⟨rfl, ?_⟩
    omega

/-- A segment at `offset`, cut at the borders of the earlier text's segments, sends its offsets
where these send them. -/
theorem WellFormed.appends_overlapping (h : previous.WellFormed) (offset first last : Nat) :
    Appends ((previous.overlapping first last).foldl (addOverlap previous offset first last) ·)
      offset (offset + (last - first))
      (fun o t p => (offset ≤ o ∧ o < offset + (last - first)) ∧
        previous.Sends (first + (o - offset)) t p) := by
  have hsub := previous.overlapping_sublist first last
  -- the pieces keep the order of the earlier segments
  refine (appends_foldl (fun s hs => h.appends_addOverlap (hsub.mem hs) offset first last)
    ?_ ?_ ?_ (Nat.le_add_right _ _)).congr (Nat.le_refl _) ?_
  · refine (h.ordered.sublist hsub).imp_of_mem ?_
    intro s t hs _ hst
    have hlt := h.nonempty s (hsub.mem hs)
    omega
  · intro s _
    exact Nat.le_add_right _ _
  · intro s hs
    have hlt := start_lt_of_mem_overlapping hs
    omega
  · intro o t p
    constructor
    · rintro ⟨s, hs, hin, hsource, hsends⟩
      exact ⟨hin, s, hsub.mem hs, hsource, hsends⟩
    · rintro ⟨hin, s, hs, hsource, hsends⟩
      refine ⟨s, h.mem_overlapping hs hsends ?_ ?_, hin, hsource, hsends⟩ <;> omega

/-! ### Composition -/

/-- An offset of a source is sent on by `R` if the source is the earlier text, and stays where it
is if not. -/
def Onward (file : String) (R : Nat → String → Nat → Prop) (source : String) (q : Nat)
    (t : String) (p : Nat) : Prop :=
  (source ≠ file ∧ source = t ∧ q = p) ∨ (source = file ∧ R q t p)

theorem WellFormed.source_eq_iff (h : m.WellFormed) {s : Segment} (hs : s ∈ m.segments.toList)
    (file : String) : some s.source = m.sourceIndex? file ↔ m.sourceName s.source = file := by
  have hget := h.getElem?_sources hs
  obtain ⟨hlt, hname⟩ := List.getElem?_eq_some_iff.mp hget
  rw [sourceIndex?, eq_comm, List.idxOf?_eq_some_iff, ← hname]
  constructor
  · rintro ⟨_, heq, -⟩
    exact heq
  · rintro rfl
    -- no source is there twice, so that the number found first is this one
    refine ⟨hlt, rfl, ?_⟩
    intro j hj heq
    exact absurd (h.sources_nodup.getElem_inj_iff.mp heq) (Nat.ne_of_lt hj)

/-- A segment of the newer map sends its offsets where the earlier map sends them on. -/
theorem appends_addComposed (hm : m.WellFormed) (hprevious : previous.WellFormed) {s : Segment}
    (hs : s ∈ m.segments.toList) :
    Appends (m.addComposed previous · s) s.start s.stop
      (fun o t p => ∃ source q, m.sources[s.source]? = some source ∧ s.Sends o q ∧
        Onward previous.file previous.Sends source q t p) := by
  have hlt := hm.nonempty s hs
  have hget := hm.getElem?_sources hs
  unfold addComposed
  by_cases hfile : m.sourceName s.source = previous.file
  · simp only [if_pos ((hm.source_eq_iff hs previous.file).mpr hfile)]
    refine (hprevious.appends_overlapping s.start s.sourceStart
      (s.sourceStart + (s.stop - s.start))).congr (by omega) ?_
    intro o t p
    constructor
    · rintro ⟨hin, hsends⟩
      exact ⟨_, _, hget, ⟨hin.1, by omega, rfl⟩, Or.inr ⟨hfile, hsends⟩⟩
    · rintro ⟨source, q, hsource, ⟨hstart, hstop, rfl⟩, honward⟩
      cases hget.symm.trans hsource
      rcases honward with ⟨hne, -⟩ | ⟨-, hsends⟩
      · exact absurd hfile hne
      · exact ⟨by omega, hsends⟩
  · simp only [if_neg (mt (hm.source_eq_iff hs previous.file).mp hfile)]
    refine (appends_addSegment s.start s.stop s.sourceStart (m.sourceName s.source)
      (m.segmentName? s)).congr (by omega) ?_
    intro o t p
    constructor
    · rintro ⟨rfl, hsends⟩
      exact ⟨_, _, hget, hsends, Or.inl ⟨hfile, rfl, rfl⟩⟩
    · rintro ⟨source, q, hsource, hsends, honward⟩
      cases hget.symm.trans hsource
      rcases honward with ⟨-, rfl, rfl⟩ | ⟨heq, -⟩
      · exact ⟨rfl, hsends⟩
      · exact absurd heq hfile

theorem bounded_empty (file : String) : (empty file).Bounded 0 := by
  refine ⟨⟨?_, List.Pairwise.nil, ?_, ?_, List.nodup_nil⟩, ?_⟩ <;> exact fun s hs => nomatch hs

/-- The composition of two maps sends an offset where the newer one sends it and the earlier one
sends it on. -/
theorem sends_mergeWith (hm : m.WellFormed) (hprevious : previous.WellFormed) :
    (m.mergeWith previous).WellFormed ∧
      ∀ o t p, (m.mergeWith previous).Sends o t p ↔
        ∃ source q, m.Sends o source q ∧ Onward previous.file previous.Sends source q t p := by
  obtain ⟨stop, hstop⟩ : ∃ stop, ∀ s ∈ m.segments.toList, s.stop ≤ stop :=
    ⟨(m.segments.toList.map (·.stop)).foldr max ⊥, fun s hs =>
      List.le_max_of_le (List.mem_map_of_mem hs) (Nat.le_refl s.stop)⟩
  obtain ⟨hbounded, hsends⟩ := appends_foldl (fun s hs => appends_addComposed hm hprevious hs)
    hm.ordered (fun s _ => Nat.zero_le s.start) hstop (Nat.zero_le stop) (empty m.file) 0
    (bounded_empty m.file) (Nat.le_refl 0)
  rw [mergeWith, ← Array.foldl_toList]
  refine ⟨hbounded.wellFormed, ?_⟩
  intro o t p
  refine (hsends o t p).trans ?_
  constructor
  · rintro (⟨s, hs, -⟩ | ⟨s, hs, source, q, hsource, hq, honward⟩)
    · cases hs
    · exact ⟨source, q, ⟨s, hs, hsource, hq⟩, honward⟩
  · rintro ⟨source, q, ⟨s, hs, hsource, hq⟩, honward⟩
    exact Or.inr ⟨s, hs, source, q, hsource, hq, honward⟩

theorem file_addSegment (m : SourceMap) (start stop source sourceStart : Nat)
    (name : Option String) : (m.addSegment start stop source sourceStart name).file = m.file := by
  unfold addSegment
  split
  · rfl
  · cases name <;> rfl

theorem file_foldl {f : SourceMap → Segment → SourceMap} (hf : ∀ m s, (f m s).file = m.file)
    (m : SourceMap) (ss : List Segment) : (ss.foldl f m).file = m.file := by
  induction ss generalizing m with
  | nil => rfl
  | cons s ss ih => rw [List.foldl_cons, ih, hf]

theorem file_addComposed (m previous merged : SourceMap) (s : Segment) :
    (m.addComposed previous merged s).file = merged.file := by
  unfold addComposed
  split
  · refine file_foldl ?_ merged _
    intro merged s
    exact file_addSegment ..
  · exact file_addSegment ..

theorem file_mergeWith (m previous : SourceMap) : (m.mergeWith previous).file = m.file := by
  rw [mergeWith, ← Array.foldl_toList]
  exact file_foldl (file_addComposed m previous) _ _

/-- The composition of two maps translates an offset exactly as the newer one and then, from the
earlier text on, the earlier one. -/
theorem exactAt_mergeWith (hm : m.WellFormed) (hprevious : previous.WellFormed) {o p : Nat}
    {t : String} :
    (m.mergeWith previous).ExactAt o t p ↔
      ∃ source q, m.ExactAt o source q ∧ Onward previous.file previous.ExactAt source q t p := by
  obtain ⟨hmerged, hsends⟩ := sends_mergeWith hm hprevious
  simp only [exactAt_iff hmerged, hsends, exactAt_iff hm, Onward, exactAt_iff hprevious]

theorem WellFormed.exactAt_iff_sourceName (h : m.WellFormed) {o p : Nat} {t : String} :
    m.ExactAt o t p ↔ ∃ place, m.translate o = some place ∧ place.exact = true ∧
      m.sourceName place.source = t ∧ place.offset = p := by
  refine exists_congr fun place => and_congr_right fun ht => and_congr_right fun hexact => ?_
  obtain ⟨s, hs, hsource, -⟩ := h.exists_mem_of_translate ht hexact
  rw [← hsource, h.getElem?_sources hs, Option.some_inj]

end SourceMap

/-! ### Chains -/

namespace Chain

open SourceMap

/-- An offset of the newest revision is translated exactly through the chain. -/
def ExactAt (c : Chain) (o : Nat) (source : String) (p : Nat) : Prop :=
  ∃ place, c.translate o = some (source, place) ∧ place.exact = true ∧ place.offset = p

theorem exactAt_singleton {m : SourceMap} (h : m.WellFormed) {o p : Nat} {t : String} :
    (Chain.mk [m]).ExactAt o t p ↔ m.ExactAt o t p := by
  rw [h.exactAt_iff_sourceName]
  unfold ExactAt translate translateFrom
  cases m.translate o <;> simp [and_assoc, and_left_comm]

theorem exactAt_cons {m previous : SourceMap} {older : List SourceMap} (h : m.WellFormed)
    {o p : Nat} {t : String} :
    (Chain.mk (m :: previous :: older)).ExactAt o t p ↔
      ∃ source q, m.ExactAt o source q ∧
        Onward previous.file (Chain.mk (previous :: older)).ExactAt source q t p := by
  simp only [h.exactAt_iff_sourceName]
  unfold ExactAt translate
  rw [translateFrom]
  cases ht : m.translate o with
  | none => simp
  | some place =>
    have honward : ∀ R : Nat → String → Nat → Prop,
        (∃ source q, (∃ place', some place = some place' ∧ place'.exact = true ∧
          m.sourceName place'.source = source ∧ place'.offset = q) ∧
            Onward previous.file R source q t p) ↔
        place.exact = true ∧
          Onward previous.file R (m.sourceName place.source) place.offset t p := by
      intro R
      simp
    rw [honward, Onward]
    by_cases hname : m.sourceName place.source = previous.file
    · simp [hname, Option.bind_eq_some_iff, and_assoc, and_left_comm]
    · simp [hname, and_left_comm]

/-- The merged map of a chain translates an offset exactly as the chain does. -/
theorem exists_merged (m : SourceMap) (older : List SourceMap)
    (h : ∀ m' ∈ m :: older, m'.WellFormed) :
    ∃ merged, mergedFrom (m :: older) = some merged ∧ merged.file = m.file ∧ merged.WellFormed ∧
      ∀ o t p, merged.ExactAt o t p ↔ (Chain.mk (m :: older)).ExactAt o t p := by
  -- the merged map of the older revisions describes the same text as the newest of them
  induction older generalizing m with
  | nil =>
    have hm := h m (List.mem_singleton_self m)
    exact ⟨m, rfl, rfl, hm, fun o t p => (exactAt_singleton hm).symm⟩
  | cons previous older ih =>
    rw [List.forall_mem_cons] at h
    obtain ⟨merged, hmerged, hfile, hwf, hexact⟩ := ih previous h.2
    refine ⟨m.mergeWith merged, ?_, file_mergeWith m merged, (sends_mergeWith h.1 hwf).1, ?_⟩
    · rw [mergedFrom, hmerged]
    · intro o t p
      rw [exactAt_mergeWith h.1 hwf, exactAt_cons h.1, hfile]
      simp only [Onward, hexact]

end Chain

/-- Composition of maps is composition of their exact translations.  The merged map of a chain is
again well-formed, and translates exactly what the chain translates exactly, to the same place. -/
theorem mergeWith_composes :
    (∀ m previous : SourceMap, m.WellFormed → previous.WellFormed →
      (m.mergeWith previous).WellFormed ∧
      ∀ o source p, (m.mergeWith previous).ExactAt o source p ↔
        (m.ExactAt o source p ∧ source ≠ previous.file) ∨
        ∃ q, m.ExactAt o previous.file q ∧ previous.ExactAt q source p) ∧
    ∀ c : Chain, (∀ m ∈ c.maps, m.WellFormed) →
      (c.maps ≠ [] → ∃ merged, c.merged? = some merged ∧ merged.WellFormed) ∧
      ∀ o source p, (∃ merged, c.merged? = some merged ∧ merged.ExactAt o source p) ↔
        c.ExactAt o source p := by
  constructor
  · intro m previous hm hprevious
    refine ⟨(SourceMap.sends_mergeWith hm hprevious).1, ?_⟩
    intro o source p
    rw [SourceMap.exactAt_mergeWith hm hprevious]
    constructor
    · rintro ⟨source', q, hq, ⟨hne, rfl, rfl⟩ | ⟨rfl, honward⟩⟩
      · exact Or.inl ⟨hq, hne⟩
      · exact Or.inr ⟨q, hq, honward⟩
    · rintro (⟨hexact, hne⟩ | ⟨q, hq, honward⟩)
      · exact ⟨source, p, hexact, Or.inl ⟨hne, rfl, rfl⟩⟩
      · exact ⟨previous.file, q, hq, Or.inr ⟨rfl, honward⟩⟩
  · rintro ⟨_ | ⟨m, older⟩⟩ h
    · refine ⟨fun hne => absurd rfl hne, ?_⟩
      intro o source p
      constructor
      · rintro ⟨merged, hmerged, -⟩
        cases hmerged
      · rintro ⟨place, hplace, -⟩
        cases hplace
    · obtain ⟨merged, hmerged, -, hwf, hexact⟩ := Chain.exists_merged m older h
      refine ⟨fun _ => ⟨merged, hmerged, hwf⟩, ?_⟩
      intro o source p
      rw [← hexact]
      constructor
      · rintro ⟨merged', hmerged', hat⟩
        cases hmerged.symm.trans hmerged'
        exact hat
      · intro hat
        exact ⟨merged, hmerged, hat⟩

/-- A first revision, generated from a view. -/
def firstRevision : SourceMap :=
  ⟨"first", ["view"], ["name"], #[⟨1, 4, 0, 10, some 0⟩, ⟨4, 6, 0, 40, none⟩, ⟨7, 9, 0, 50, none⟩]⟩

/-- A second revision, generated from the first one and a library. -/
def secondRevision : SourceMap :=
  ⟨"second", ["library", "first"], [], #[⟨0, 6, 1, 2, none⟩, ⟨8, 11, 0, 0, none⟩]⟩

theorem mergeWith_composes_revisions :
    (firstRevision.WellFormed ∧ secondRevision.WellFormed) ∧
    (secondRevision.mergeWith firstRevision).WellFormed ∧
    (secondRevision.mergeWith firstRevision).ExactAt 3 "view" 41 ∧
    (secondRevision.mergeWith firstRevision).ExactAt 9 "library" 1 ∧
    ∃ merged, (Chain.mk [secondRevision, firstRevision]).merged? = some merged ∧
      merged.ExactAt 5 "view" 50 := by
  have hfirst : firstRevision.WellFormed := by decide
  have hsecond : secondRevision.WellFormed := by decide
  obtain ⟨hwf, hexact⟩ := mergeWith_composes.1 secondRevision firstRevision hsecond hfirst
  refine ⟨⟨hfirst, hsecond⟩, hwf, (hexact 3 "view" 41).mpr (Or.inr ⟨5, ?_, ?_⟩),
    (hexact 9 "library" 1).mpr (Or.inl ⟨?_, ?_⟩),
    ((mergeWith_composes.2 ⟨[secondRevision, firstRevision]⟩ ?_).2 5 "view" 50).mpr ?_⟩
  · exact ⟨⟨1, 5, true⟩, by decide⟩
  · exact ⟨⟨0, 41, true⟩, by decide⟩
  · exact ⟨⟨0, 1, true⟩, by decide⟩
  · decide
  · intro m hm
    rcases List.mem_pair.mp hm with rfl | rfl
    · exact hsecond
    · exact hfirst
  · exact ⟨⟨0, 50, true⟩, by decide⟩

end ViewLint
