import ViewLint.Proofs.SourceMap.Compose

/-!
# Source maps by their stretches

The segments of a map refer to sources and names by number, and the numbers depend on what has
been added before.  With the texts in place of the numbers a segment is a stretch, and all that a
map says is the list of its stretches: adding one puts it at the end of the list, composing two maps
cuts one list by the other, and looking up an offset finds the last stretch that begins at or before
it.

## Main definitions

* `Stretch`, `SourceMap.stretches` — segments with the texts of their sources and names.
* `Stretch.through` — the pieces of a stretch that goes to an earlier text.
* `SourceMap.ofStretches` — the map of some stretches, numbered in the order of their first use.
* `lastBefore` — the last stretch that begins at or before an offset.

## Main results

* `SourceMap.Closed.foldl_addStretch` — stretches that are added one after the other.
* `SourceMap.mergeWith_eq_ofStretches`, `SourceMap.stretches_mergeWith` — the pieces of a
  composition make it up, and are its stretches.
* `SourceMap.WellFormed.translate_eq` — translation by the stretches of a map.
-/

namespace ViewLint

/-- A segment of a source map with the texts of its source and its name. -/
structure Stretch where
  start : Nat
  stop : Nat
  source : String
  sourceStart : Nat
  name : Option String
  deriving DecidableEq, Repr

namespace Stretch

/-- Whether a stretch covers anything. -/
def solid (x : Stretch) : Bool := x.start < x.stop

/-- The part of a stretch `y` of an earlier text that a stretch `x` to that text takes over. -/
def cut (x y : Stretch) : Stretch :=
  let last := x.sourceStart + (x.stop - x.start)
  let start := max x.sourceStart y.start
  ⟨x.start + (start - x.sourceStart), x.start + (min last y.stop - x.sourceStart), y.source,
    y.sourceStart + (start - y.start), y.name⟩

theorem solid_iff {x : Stretch} : x.solid = true ↔ x.start < x.stop := decide_eq_true_iff

/-- A stretch takes over something of another one if both cover something, and neither goes to or
begins at a place where the other ends, or behind it. -/
theorem solid_cut_iff {x y : Stretch} :
    (x.cut y).solid = true ↔ x.start < x.stop ∧ y.start < y.stop ∧ x.sourceStart < y.stop ∧
      y.start < x.sourceStart + (x.stop - x.start) := by
  simp only [solid_iff, cut]
  omega

/-- The pieces of a stretch in the composition with an earlier map: if it goes to the text that the
earlier map describes, these are the parts that stretches of that map cover. -/
def through (file : String) (earlier : List Stretch) (x : Stretch) : List Stretch :=
  if x.source = file then (earlier.map x.cut).filter (·.solid) else [x]

end Stretch

namespace SourceMap

variable {m previous : SourceMap}

/-- A segment of a map, with texts in place of numbers. -/
def stretch (m : SourceMap) (s : Segment) : Stretch :=
  ⟨s.start, s.stop, m.sourceName s.source, s.sourceStart, m.segmentName? s⟩

/-- The stretches of a map, in order. -/
def stretches (m : SourceMap) : List Stretch := m.segments.toList.map m.stretch

/-- Adds a stretch behind all others. -/
def addStretch (m : SourceMap) (x : Stretch) : SourceMap :=
  (m.addSource x.source).2.addSegment x.start x.stop (m.addSource x.source).1 x.sourceStart x.name

/-! ### Adding stretches -/

/-- The segments refer to sources and names that are there. -/
structure Closed (m : SourceMap) : Prop where
  source_lt : ∀ s ∈ m.segments.toList, s.source < m.sources.length
  name_lt : ∀ s ∈ m.segments.toList, ∀ k, s.name = some k → k < m.names.length

theorem WellFormed.closed (h : m.WellFormed) : m.Closed := ⟨h.source_lt, h.name_lt⟩

theorem closed_empty (file : String) : (empty file).Closed := (bounded_empty file).wellFormed.closed

/-- What a segment refers to stays the same when sources and names are added behind. -/
theorem Closed.stretch_eq (h : m.Closed) {m' : SourceMap} (hsources : m.sources <+: m'.sources)
    (hnames : m.names <+: m'.names) {s : Segment} (hs : s ∈ m.segments.toList) :
    m'.stretch s = m.stretch s := by
  obtain ⟨sources, hsources⟩ := hsources
  obtain ⟨names, hnames⟩ := hnames
  have hsource : m'.sourceName s.source = m.sourceName s.source := by
    rw [sourceName, ← hsources, List.getElem?_append_left (h.source_lt s hs), sourceName]
  have hname : m'.segmentName? s = m.segmentName? s := by
    unfold segmentName?
    cases hk : s.name with
    | none => rfl
    | some k =>
      have hlt := h.name_lt s hs k hk
      simp [← hnames, List.getElem?_append_left hlt]
  rw [stretch, hsource, hname, stretch]

/-- The name that has just been added is the one of the number that it got. -/
theorem bind_addName (m : SourceMap) (name : Option String) :
    (m.addName name).1.bind ((m.addName name).2.names[·]?) = name := by
  cases name with
  | none => rfl
  | some name => exact getElem?_intern m.names name

theorem prefix_addName (m : SourceMap) (name : Option String) :
    m.names <+: (m.addName name).2.names := by
  cases name with
  | none => exact List.prefix_rfl
  | some name => exact prefix_intern m.names name

theorem Closed.addSource (h : m.Closed) (source : String) :
    (m.addSource source).2.Closed ∧ (m.addSource source).2.stretches = m.stretches := by
  have hsources : m.sources <+: (m.addSource source).2.sources := prefix_intern m.sources source
  refine ⟨⟨?_, h.name_lt⟩, ?_⟩
  · intro s hs
    exact Nat.lt_of_lt_of_le (h.source_lt s hs) hsources.length_le
  · apply List.map_congr_left
    intro s hs
    exact h.stretch_eq hsources (List.prefix_refl m.names) hs

/-- A segment is added behind all others, unless it is empty. -/
theorem Closed.addSegment (h : m.Closed) {i : Nat} {source : String}
    (hi : m.sources[i]? = some source) (start stop sourceStart : Nat) (name : Option String) :
    (m.addSegment start stop i sourceStart name).Closed ∧
      (m.addSegment start stop i sourceStart name).stretches =
        m.stretches ++ [Stretch.mk start stop source sourceStart name].filter (·.solid) := by
  unfold SourceMap.addSegment
  by_cases hlt : start < stop
  · have hsolid : (Stretch.mk start stop source sourceStart name).solid = true :=
      decide_eq_true hlt
    rw [if_neg (Nat.not_le.mpr hlt), List.filter_cons_of_pos hsolid, List.filter_nil]
    have hnames := prefix_addName m name
    have hname := bind_addName m name
    obtain ⟨hsources, hsegments, -, hbound⟩ := addName_spec m name
    generalize m.addName name = r at hnames hname hsources hsegments hbound ⊢
    obtain ⟨k, m'⟩ := r
    dsimp only at hnames hname hsources hsegments hbound ⊢
    constructor
    · constructor <;> simp only [hsegments, hsources, Array.toList_push, List.forall_mem_append,
        List.forall_mem_singleton]
      · exact ⟨h.source_lt, (List.getElem?_eq_some_iff.mp hi).1⟩
      · refine ⟨?_, hbound⟩
        intro s hs j hj
        exact Nat.lt_of_lt_of_le (h.name_lt s hs j hj) hnames.length_le
    · rw [stretches, hsegments, Array.toList_push, List.map_append, List.map_singleton]
      congr 1
      · apply List.map_congr_left
        intro s hs
        exact h.stretch_eq (hsources ▸ List.prefix_rfl) hnames hs
      · simp [stretch, sourceName, segmentName?, hsources, hi, hname]
  · have hempty : ¬(Stretch.mk start stop source sourceStart name).solid = true := by
      simpa [Stretch.solid] using hlt
    rw [if_pos (Nat.le_of_not_lt hlt), List.filter_cons_of_neg hempty, List.filter_nil,
      List.append_nil]
    exact ⟨h, rfl⟩

theorem Closed.addStretch (h : m.Closed) (x : Stretch) :
    (m.addStretch x).Closed ∧ (m.addStretch x).stretches = m.stretches ++ [x].filter (·.solid) := by
  obtain ⟨hclosed, hstretches⟩ := h.addSource x.source
  have hadded := hclosed.addSegment (getElem?_addSource m x.source) x.start x.stop x.sourceStart
    x.name
  rw [hstretches] at hadded
  exact hadded

/-- Stretches that are added one after the other, of which empty ones are left out. -/
theorem Closed.foldl_addStretch (h : m.Closed) (xs : List Stretch) :
    (xs.foldl SourceMap.addStretch m).Closed ∧
      (xs.foldl SourceMap.addStretch m).stretches = m.stretches ++ xs.filter (·.solid) := by
  induction xs generalizing m with
  | nil => simpa using h
  | cons x xs ih =>
    obtain ⟨hclosed, hx⟩ := h.addStretch x
    obtain ⟨hclosed', hxs⟩ := ih hclosed
    refine ⟨hclosed', ?_⟩
    rw [List.foldl_cons, hxs, hx, List.append_assoc, ← List.filter_append, List.singleton_append]

/-! ### Composition -/

/-- Where those that satisfy a predicate come first, those behind them do not. -/
theorem not_of_mem_dropWhile {α : Type} {p : α → Bool} {xs : List α}
    (h : xs.Pairwise fun a b => p b → p a) {x : α} (hx : x ∈ xs.dropWhile p) : p x = false := by
  induction xs with
  | nil => cases hx
  | cons y xs ih =>
    rw [List.pairwise_cons] at h
    by_cases hy : p y = true
    · rw [List.dropWhile_cons_of_pos hy] at hx
      exact ih h.2 hx
    · rw [List.dropWhile_cons_of_neg hy] at hx
      rcases List.mem_cons.mp hx with rfl | hx
      · exact Bool.eq_false_iff.mpr hy
      · exact Bool.eq_false_iff.mpr fun hpx => hy (h.1 x hx hpx)

theorem filter_map_eq_nil {α : Type} {f : α → Stretch} {xs : List α}
    (h : ∀ x ∈ xs, (f x).stop ≤ (f x).start) : (xs.map f).filter (·.solid) = [] := by
  rw [List.filter_eq_nil_iff]
  intro y hy
  obtain ⟨x, hx, rfl⟩ := List.mem_map.mp hy
  have := h x hx
  simpa [Stretch.solid] using this

/-- Of the stretches of the earlier text only those that meet a stretch have a part in it. -/
theorem WellFormed.filter_cut (h : previous.WellFormed) (x : Stretch) :
    ((previous.overlapping x.sourceStart (x.sourceStart + (x.stop - x.start))).map
        fun s => x.cut (previous.stretch s)).filter (·.solid) =
      (previous.stretches.map x.cut).filter (·.solid) := by
  have hstart := h.pairwise_start (x.sourceStart + (x.stop - x.start) - 1)
  have hstop := h.pairwise_stop x.sourceStart
  rw [overlapping, bisect_eq_length_takeWhile hstop, drop_length_takeWhile, stretches, List.map_map]
  generalize previous.segments.toList = ss at hstart hstop ⊢
  -- those before it end where it begins, or earlier
  have hbefore : ∀ s ∈ ss.takeWhile (fun s => s.stop ≤ x.sourceStart),
      (x.cut (previous.stretch s)).stop ≤ (x.cut (previous.stretch s)).start := by
    intro s hs
    have hle := List.mem_takeWhile_imp hs
    rw [decide_eq_true_eq] at hle
    simp only [Stretch.cut, stretch]
    omega
  -- and those behind it begin where it ends, or later
  have hbehind : ∀ s ∈ (ss.dropWhile fun s => s.stop ≤ x.sourceStart).dropWhile
        (fun s => s.start < x.sourceStart + (x.stop - x.start)),
      (x.cut (previous.stretch s)).stop ≤ (x.cut (previous.stretch s)).start := by
    intro s hs
    have hsorted : (ss.dropWhile fun s => s.stop ≤ x.sourceStart).Pairwise fun s t =>
        decide (t.start < x.sourceStart + (x.stop - x.start)) = true →
          decide (s.start < x.sourceStart + (x.stop - x.start)) = true := by
      apply (hstart.sublist (List.dropWhile_sublist _)).imp
      intro s t hst
      simp only [decide_eq_true_eq] at hst ⊢
      omega
    have hle := not_of_mem_dropWhile hsorted hs
    rw [decide_eq_false_iff_not] at hle
    simp only [Stretch.cut, stretch]
    omega
  calc _ = (((ss.takeWhile fun s => s.stop ≤ x.sourceStart).map
              fun s => x.cut (previous.stretch s)).filter (·.solid)) ++
            ((((ss.dropWhile fun s => s.stop ≤ x.sourceStart).takeWhile
              (fun s => s.start < x.sourceStart + (x.stop - x.start))).map
                fun s => x.cut (previous.stretch s)).filter (·.solid) ++
            (((ss.dropWhile fun s => s.stop ≤ x.sourceStart).dropWhile
              (fun s => s.start < x.sourceStart + (x.stop - x.start))).map
                fun s => x.cut (previous.stretch s)).filter (·.solid)) := by
        rw [filter_map_eq_nil hbefore, filter_map_eq_nil hbehind, List.nil_append, List.append_nil]
    _ = _ := by
        rw [← List.filter_append, ← List.map_append, List.takeWhile_append_dropWhile,
          ← List.filter_append, ← List.map_append, List.takeWhile_append_dropWhile]
        rfl

/-- A segment that meets a stretch has a part in it. -/
theorem WellFormed.solid_of_mem_overlapping (h : previous.WellFormed) {x : Stretch}
    (hx : x.solid = true) {s : Segment}
    (hs : s ∈ previous.overlapping x.sourceStart (x.sourceStart + (x.stop - x.start))) :
    (x.cut (previous.stretch s)).solid = true := by
  have hlast := start_lt_of_mem_overlapping hs
  have hnonempty := h.nonempty s ((previous.overlapping_sublist _ _).mem hs)
  have hfirst : x.sourceStart < s.stop := by
    rw [overlapping, bisect_eq_length_takeWhile (h.pairwise_stop x.sourceStart),
      drop_length_takeWhile] at hs
    have hdropped := not_of_mem_dropWhile (h.pairwise_stop x.sourceStart)
      ((List.takeWhile_sublist _).mem hs)
    rwa [decide_eq_false_iff_not, Nat.not_le] at hdropped
  exact Stretch.solid_cut_iff.mpr ⟨Stretch.solid_iff.mp hx, hnonempty, hfirst, hlast⟩

/-- A segment of the newer map adds its pieces to a composition. -/
theorem addComposed_eq_foldl (hm : m.WellFormed) (hprevious : previous.WellFormed) {s : Segment}
    (hs : s ∈ m.segments.toList) (merged : SourceMap) :
    m.addComposed previous merged s =
      ((m.stretch s).through previous.file previous.stretches).foldl addStretch merged := by
  unfold addComposed Stretch.through
  by_cases hfile : (m.stretch s).source = previous.file
  · have hsolid : (m.stretch s).solid = true := decide_eq_true (hm.nonempty s hs)
    -- all segments that meet the stretch count, since none of the parts is empty
    have hkept : ∀ y ∈ (previous.overlapping (m.stretch s).sourceStart
        ((m.stretch s).sourceStart + ((m.stretch s).stop - (m.stretch s).start))).map
          (fun t => (m.stretch s).cut (previous.stretch t)), y.solid = true := by
      intro y hy
      obtain ⟨t, ht, rfl⟩ := List.mem_map.mp hy
      exact hprevious.solid_of_mem_overlapping hsolid ht
    rw [if_pos ((hm.source_eq_iff hs previous.file).mpr hfile), if_pos hfile,
      ← hprevious.filter_cut (m.stretch s), List.filter_eq_self.mpr hkept, List.foldl_map]
    rfl
  · rw [if_neg (mt (hm.source_eq_iff hs previous.file).mp hfile), if_neg hfile]
    rfl

/-- The map of some stretches, which are added one after the other. -/
def ofStretches (file : String) (xs : List Stretch) : SourceMap := xs.foldl addStretch (empty file)

/-- A composition is the map of the pieces of the stretches of the newer map. -/
theorem mergeWith_eq_ofStretches (hm : m.WellFormed) (hprevious : previous.WellFormed) :
    m.mergeWith previous = ofStretches m.file
      (m.stretches.flatMap (Stretch.through previous.file previous.stretches)) := by
  -- segment by segment, from any map on
  have hfold : ∀ (ss : List Segment) (merged : SourceMap), (∀ s ∈ ss, s ∈ m.segments.toList) →
      ss.foldl (m.addComposed previous) merged =
        ((ss.map m.stretch).flatMap
          (Stretch.through previous.file previous.stretches)).foldl addStretch merged := by
    intro ss
    induction ss with
    | nil => exact fun _ _ => rfl
    | cons s ss ih =>
      intro merged hss
      rw [List.forall_mem_cons] at hss
      rw [List.foldl_cons, addComposed_eq_foldl hm hprevious hss.1, ih _ hss.2, List.map_cons,
        List.flatMap_cons, List.foldl_append]
  rw [mergeWith, ← Array.foldl_toList, hfold _ _ fun _ hs => hs]
  rfl

/-- The stretches of a composition are the pieces of the stretches of the newer map. -/
theorem stretches_mergeWith (hm : m.WellFormed) (hprevious : previous.WellFormed) :
    (m.mergeWith previous).stretches =
      m.stretches.flatMap (Stretch.through previous.file previous.stretches) := by
  have hsolid : ∀ y ∈ m.stretches.flatMap (Stretch.through previous.file previous.stretches),
      y.solid = true := by
    intro y hy
    obtain ⟨x, hx, hy⟩ := List.mem_flatMap.mp hy
    obtain ⟨s, hs, rfl⟩ := List.mem_map.mp hx
    unfold Stretch.through at hy
    split at hy
    · exact (List.mem_filter.mp hy).2
    · rw [List.mem_singleton.mp hy]
      exact decide_eq_true (hm.nonempty s hs)
  rw [mergeWith_eq_ofStretches hm hprevious, ofStretches,
    ((closed_empty m.file).foldl_addStretch _).2, List.filter_eq_self.mpr hsolid]
  rfl

end SourceMap

/-! ### Looking up -/

/-- The last stretch that begins at or before an offset. -/
def lastBefore (o : Nat) (xs : List Stretch) : Option Stretch := xs.reverse.find? (·.start ≤ o)

theorem lastBefore_append (o : Nat) (xs ys : List Stretch) :
    lastBefore o (xs ++ ys) = (lastBefore o ys).or (lastBefore o xs) := by
  rw [lastBefore, List.reverse_append, List.find?_append, lastBefore, lastBefore]

theorem lastBefore_eq_none {o : Nat} {xs : List Stretch} (h : ∀ x ∈ xs, o < x.start) :
    lastBefore o xs = none := by
  rw [lastBefore, List.find?_eq_none]
  intro x hx
  have := h x (List.mem_reverse.mp hx)
  simpa using this

/-- Stretches that begin behind an offset do not matter. -/
theorem lastBefore_append_of_lt {o : Nat} {xs ys : List Stretch} (h : ∀ y ∈ ys, o < y.start) :
    lastBefore o (xs ++ ys) = lastBefore o xs := by
  rw [lastBefore_append, lastBefore_eq_none h, Option.none_or]

theorem mem_of_lastBefore {o : Nat} {xs : List Stretch} {x : Stretch}
    (h : lastBefore o xs = some x) : x ∈ xs ∧ x.start ≤ o := by
  refine ⟨List.mem_reverse.mp (List.mem_of_find?_eq_some h), ?_⟩
  have := List.find?_some h
  simpa using this

/-- A stretch that begins at or before the offset is found, or one behind it. -/
theorem exists_lastBefore {o : Nat} {xs : List Stretch} {x : Stretch} (hx : x ∈ xs)
    (hstart : x.start ≤ o) : ∃ y, lastBefore o xs = some y := by
  cases hfound : lastBefore o xs with
  | some y => exact ⟨y, rfl⟩
  | none =>
    have := List.find?_eq_none.mp hfound x (List.mem_reverse.mpr hx)
    exact absurd (decide_eq_true hstart) this

/-- The place that an offset comes from by a stretch that begins at or before it. -/
def Stretch.place (sources : List String) (o : Nat) (x : Stretch) : Place :=
  if o < x.stop then ⟨sources.idxOf x.source, x.sourceStart + (o - x.start), true⟩
  else ⟨sources.idxOf x.source, x.sourceStart, false⟩

/-- The last of those that satisfy a predicate, where they come first. -/
theorem find?_reverse_of_pairwise {α : Type} {p : α → Bool} {xs : List α}
    (h : xs.Pairwise fun a b => p b → p a) : xs.reverse.find? p = (xs.takeWhile p).getLast? := by
  induction xs with
  | nil => rfl
  | cons x xs ih =>
    rw [List.pairwise_cons] at h
    rw [List.reverse_cons, List.find?_append, ih h.2]
    by_cases hx : p x = true
    · rw [List.takeWhile_cons_of_pos hx, List.getLast?_cons, List.find?_cons_of_pos hx]
      cases (xs.takeWhile p).getLast? <;> rfl
    · have hnone : xs.takeWhile p = [] := by
        rw [List.takeWhile_eq_nil_iff]
        intro hlt hp
        exact hx (h.1 _ (List.getElem_mem hlt) hp)
      rw [List.takeWhile_cons_of_neg hx, hnone, List.find?_cons_of_neg hx]
      rfl

namespace SourceMap

variable {m : SourceMap}

/-- An offset comes from where the last stretch that begins at or before it says. -/
theorem WellFormed.translate_eq (h : m.WellFormed) (o : Nat) :
    m.translate o = (lastBefore o m.stretches).map (Stretch.place m.sources o) := by
  have hsearch := bisect_eq_length_takeWhile (h.pairwise_start o)
  have hfound : (m.segments.toList.takeWhile fun s => s.start ≤ o).getLast? =
      m.segments.toList.reverse.find? (·.start ≤ o) :=
    (find?_reverse_of_pairwise (h.pairwise_start o)).symm
  -- the stretch of a segment gives the place that the segment gives
  have hplace : ∀ s ∈ m.segments.toList, Stretch.place m.sources o (m.stretch s) =
      if o < s.stop then ⟨s.source, s.sourceStart + (o - s.start), true⟩
      else ⟨s.source, s.sourceStart, false⟩ := by
    intro s hs
    have hnumber : m.sources.idxOf (m.sourceName s.source) = s.source := by
      obtain ⟨hlt, hname⟩ := List.getElem?_eq_some_iff.mp (h.getElem?_sources hs)
      rw [← hname]
      exact h.sources_nodup.idxOf_getElem s.source hlt
    rw [Stretch.place]
    simp only [stretch, hnumber]
  have hlookup : lastBefore o m.stretches =
      (m.segments.toList.takeWhile fun s => s.start ≤ o).getLast?.map m.stretch := by
    rw [hfound, lastBefore, stretches, ← List.map_reverse, List.find?_map]
    rfl
  rw [translate, hsearch, hlookup]
  cases hn : (m.segments.toList.takeWhile fun s => s.start ≤ o).length with
  | zero =>
    rw [List.length_eq_zero_iff.mp hn]
    rfl
  | succ n =>
    have hne : (m.segments.toList.takeWhile fun s => s.start ≤ o) ≠ [] := by
      intro hnil
      rw [hnil] at hn
      cases hn
    have hget := getElem?_length_takeWhile hne
    rw [hn, Nat.add_sub_cancel, Array.getElem?_toList] at hget
    rw [← hget, Option.map_map]
    dsimp only
    cases hs : m.segments[n]? with
    | none => rfl
    | some s =>
      rw [← Array.getElem?_toList] at hs
      exact congrArg some (hplace s (List.mem_of_getElem? hs)).symm

end SourceMap

end ViewLint
