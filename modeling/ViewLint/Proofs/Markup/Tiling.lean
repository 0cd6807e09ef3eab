import ViewLint.Proofs.Markup.Steps

/-!
# Tokens tile the text

Reading a view moves a cursor from construct to construct, and every token is made of what has been
read since the construct began.  So the tokens are stretches of the view that stand one behind the
other, and the same holds for the payloads inside a tag, and, as far as their places go, for the
names inside a directive.  Places are first taken by characters, which is how the view is read, and
then by bytes.

## Main definitions

* `Token.Sits` — a token stands in a text from one character to another, with all that is in it.
* `Location.Shows`, `Location.Inside` — the text at a place, by bytes.
* `Element.Faithful`, `Directive.Faithful` — the parts of a token are where they say they are.

## Main results

* `Markup.sits_step`, `Markup.sits_scan` — what one construct makes, and all constructs.
* `Markup.row_of_tokenize` — the tokens of a view stand one behind the other.
* `tokens_tile_text` — the same by bytes, with all places in the tokens.
-/

namespace ViewLint

open Text

/-! ### Tokens in a text -/

/-- What a tag begins with. -/
def Element.opening (e : Element) : List Char := if e.isVirtual then "<!--".toList else "<".toList

/-- What a tag ends with. -/
def Element.closing (e : Element) : List Char := if e.isVirtual then "-->".toList else ">".toList

/-- A payload stands in a text. -/
def Payload.Sits (t : List Char) (p : Payload) (i j : Nat) : Prop := Stands t p.text p.location i j

/-- A tag stands in a text, between its brackets, and has its payloads one behind the other. -/
structure Element.Sits (t : List Char) (e : Element) (i j : Nat) : Prop where
  place : ∃ body, Stands t (.ofList (e.opening ++ body ++ e.closing)) e.location i j
  bindings : Row (Payload.Sits t) j i e.bindings

/-- A directive stands in a text, and has its names in it. -/
structure Directive.Sits (t : List Char) (d : Directive) (i j : Nat) : Prop where
  place : ∃ body, Stands t body d.location i j
  names : ∀ n ∈ d.names, n.Within t i j

/-- A token stands in a text, from one character to a later one. -/
def Token.Sits (t : List Char) (x : Token) (i j : Nat) : Prop :=
  i < j ∧ match x with
    | .element e => e.Sits t i j
    | .directive d => d.Sits t i j

namespace Markup

variable {s : Source} {c c' : Cursor}

/-! ### Tags -/

/-- A value stands between two places that are reached on the way. -/
theorem exists_of_attributeValue {i j : Nat} (h : attributeValue c = .ok (i, j, c')) :
    ∃ c₁ c₂, c.Reaches c₁ ∧ c₁.Reaches c₂ ∧ c₂.Reaches c' ∧ c₁.pos = i ∧ c₂.pos = j := by
  unfold attributeValue at h
  split at h
  · cases h
  · next quote rest hrest =>
    split at h
    · split at h
      · next n hn =>
        cases h
        exact Cursor.exists_quoted hrest hn
      · cases h
    · cases h
      have hvalue := Cursor.reads_of_prefix (List.takeWhile_prefix (l := c.rest) (!endsBareValue ·))
      exact ⟨c, _, .refl c, hvalue.reaches, .refl _, rfl, hvalue.pos⟩

/-- The payload of an attribute stands behind its name. -/
theorem row_oneAttribute (hc : c.In s.text) {p : Option Payload}
    (h : oneAttribute s c = .ok (p, c')) :
    (c.drop (c.rest.takeWhile (!endsAttributeName ·)).length).Reaches c' ∧
      Row (Payload.Sits s.text) c'.pos c.pos p.toList := by
  unfold oneAttribute at h
  dsimp only at h
  generalize hname : c.drop (c.rest.takeWhile (!endsAttributeName ·)).length = named at h ⊢
  have hnamed : c.Reaches named := hname ▸ c.reaches_drop _
  have hsign := named.reaches_skipWhile isMarkupBlank
  split at h
  · cases h
    exact ⟨hsign, (hnamed.trans hsign).pos_le⟩
  · obtain ⟨⟨i, j, after⟩, hvalue, h⟩ := Except.bind_eq_ok.mp h
    obtain ⟨c₁, c₂, h₁, h₂, hafter, rfl, rfl⟩ := exists_of_attributeValue hvalue
    have hstart : named.Reaches c₁ :=
      (hsign.trans (Cursor.reaches_drop _ 1)).trans ((Cursor.reaches_skipWhile _ _).trans h₁)
    dsimp only at h
    split at h
    · cases h
      refine ⟨hstart.trans (h₂.trans hafter), ?_⟩
      have hle : c₂.pos ≤ c₂.stop := Nat.le_add_right _ _
      have hstop := (hc.reaches ((hnamed.trans hstart).trans h₂)).stop_le
      exact ⟨c₁.pos, c₂.pos, (hnamed.trans hstart).pos_le, h₂.pos_le,
        stands_ident s h₂.pos_le (Nat.le_trans hle hstop), hafter.pos_le⟩
    · cases h
      have hreach := hstart.trans (h₂.trans hafter)
      exact ⟨hreach, (hnamed.trans hreach).pos_le⟩

/-- The attributes of a tag are read one after the other, up to its bracket.  Every step takes a
character, so that the steps do not run out before. -/
theorem row_attributes (fuel : Nat) (hfuel : c.rest.length < fuel) (hc : c.In s.text)
    {type : TagType} {ps : List Payload} (h : attributes s fuel c = .ok (type, ps, c')) :
    ∃ last, c.Reaches last ∧ last.Reads ">".toList c' ∧
      Row (Payload.Sits s.text) last.pos c.pos ps := by
  induction fuel generalizing c c' type ps with
  | zero => exact absurd hfuel (Nat.not_lt_zero _)
  | succ fuel ih =>
    unfold attributes at h
    dsimp only at h
    have hskip := c.reaches_skipWhile isMarkupBlank
    have hfirst := fun x => c.head?_skipWhile isMarkupBlank (x := x)
    generalize c.skipWhile isMarkupBlank = start at h hskip hfirst
    have hlength := hskip.length_le
    split at h
    · cases h
    · next rest hrest =>
      -- an empty tag has a slash before its bracket
      cases h
      have hslash : start.Reads ['/'] (start.drop 1) := Cursor.reads_head (by rw [hrest]; rfl)
      have hbracket : (start.drop 1).Reads ['>'] ((start.drop 1).drop 1) :=
        Cursor.reads_head (by rw [Cursor.drop, hrest]; rfl)
      rw [Cursor.drop_drop] at hbracket
      have hreach := hskip.trans hslash.reaches
      exact ⟨_, hreach, hbracket, hreach.pos_le⟩
    · next rest hrest =>
      cases h
      exact ⟨start, hskip, Cursor.reads_head (by rw [hrest]; rfl), hskip.pos_le⟩
    · next rest hrest =>
      have hslash := start.reaches_drop 1
      have hshorter : (start.drop 1).rest.length < fuel := by
        simp only [Cursor.drop, hrest, List.length_drop, List.length_cons] at hlength ⊢
        omega
      obtain ⟨last, hlast, hbracket, hrow⟩ := ih hshorter (hc.reaches (hskip.trans hslash)) h
      exact ⟨last, (hskip.trans hslash).trans hlast, hbracket,
        hrow.mono (hskip.trans hslash).pos_le⟩
    · next next rest hempty hclose hslash hrest =>
      split at h
      · cases h
      · next hmarks =>
        obtain ⟨⟨p, after⟩, hone, h⟩ := Except.bind_eq_ok.mp h
        dsimp only at h
        obtain ⟨⟨type', rest', last'⟩, hrest', h⟩ := Except.bind_eq_ok.mp h
        obtain ⟨hnamed, hp⟩ := row_oneAttribute (hc.reaches hskip) hone
        cases h
        -- the name has a character, since the first one ends no name
        have hblank := hfirst next (by rw [hrest]; rfl)
        have hstarts : endsAttributeName next = false := by
          simp only [endsAttributeName, hblank, Bool.or_false, Bool.or_eq_false_iff,
            beq_eq_false_iff_ne]
          exact ⟨⟨⟨⟨fun h => hmarks (.inr (.inr h)), hclose⟩, hslash⟩, fun h => hmarks (.inl h)⟩,
            fun h => hmarks (.inr (.inl h))⟩
        have hshorter : after.rest.length < fuel := by
          have hle := hnamed.length_le
          simp only [Cursor.drop, List.length_drop, hrest, List.takeWhile_cons, hstarts,
            Bool.not_false, if_true, List.length_cons] at hle hlength
          omega
        have hreach := hskip.trans ((Cursor.reaches_drop _ _).trans hnamed)
        obtain ⟨last, hlast, hbracket, hrow⟩ := ih hshorter (hc.reaches hreach) hrest'
        exact ⟨last, hreach.trans hlast, hbracket, (hp.mono hskip.pos_le).append hrow⟩

theorem reaches_skipRaw (tag : String) (c : Cursor) : c.Reaches (skipRaw tag c) := by
  unfold skipRaw
  split
  · exact c.reaches_drop _
  · exact c.reaches_toEnd

/-- A tag is what has been read between its brackets. -/
theorem stands_tag (hc : c.In s.text) {last : Cursor} (hopen : c.rest.head? = some '<')
    (hinside : (c.drop 1).Reaches last) (hclose : last.Reads ">".toList c') :
    c.pos < c'.pos ∧
      ∃ body, Stands s.text (.ofList ("<".toList ++ body ++ ">".toList)) (s.location c.pos c'.pos)
        c.pos c'.pos := by
  have hbracket : c.Reads "<".toList (c.drop 1) := Cursor.reads_head hopen
  obtain ⟨body, hbody⟩ := hinside
  have hread := (hbracket.trans hbody).trans hclose
  refine ⟨?_, body, ?_⟩
  · have hpos := hbracket.pos
    have hle := (hbody.trans hclose).reaches.pos_le
    have hone : "<".toList.length = 1 := by decide
    omega
  · rw [show s.location c.pos c'.pos = .ofChars s.text c.pos c'.pos from s.index.location_eq _ _]
    exact hc.stands hread

/-- A start tag stands in the text with its payloads, and the text behind it may be raw. -/
theorem sits_startTag (hc : c.In s.text) (hopen : c.rest.head? = some '<') {x : Token}
    (h : startTag s c = .ok (x, c')) :
    c.Reaches c' ∧ Row (Token.Sits s.text) c'.pos c.pos [x] := by
  obtain ⟨name, type, ps, after, hattributes, rfl, rfl⟩ := exists_of_startTag h
  have hnamed := (c.reaches_drop 1).trans (Cursor.reaches_drop (c.drop 1) name.length)
  have hfuel := Nat.lt_succ_of_le hnamed.length_le
  obtain ⟨last, hlast, hclose, hrow⟩ := row_attributes _ hfuel (hc.reaches hnamed) hattributes
  have hinside := (Cursor.reaches_drop (c.drop 1) name.length).trans hlast
  obtain ⟨hlt, hplace⟩ := stands_tag hc hopen hinside hclose
  have hafter : after.Reaches (if s.isRaw (s.tag name) type then skipRaw (s.tag name) after
      else after) := by
    split
    · exact reaches_skipRaw _ _
    · exact .refl _
  have hbindings := hrow.widen hnamed.pos_le hclose.reaches.pos_le
  refine ⟨(hnamed.trans hlast).trans (hclose.reaches.trans hafter), ?_⟩
  exact ⟨c.pos, after.pos, Nat.le_refl _, Nat.le_of_lt hlt, ⟨hlt, hplace, hbindings⟩, hafter.pos_le⟩

theorem sits_endTag (hc : c.In s.text) (hopen : c.rest.head? = some '<') {x : Token}
    (h : endTag s c = .ok (x, c')) :
    c.Reaches c' ∧ Row (Token.Sits s.text) c'.pos c.pos [x] := by
  obtain ⟨name, -, hlast, rfl, rfl⟩ := exists_of_endTag h
  have hclose : Cursor.Reads _ ">".toList _ := Cursor.reads_head hlast
  have hinside : (c.drop 1).Reaches (((c.drop 2).drop name.length).skipWhile isMarkupBlank) := by
    rw [show c.drop 2 = (c.drop 1).drop 1 from (c.drop_drop 1 1).symm]
    exact ((Cursor.reaches_drop _ 1).trans (Cursor.reaches_drop _ _)).trans
      (Cursor.reaches_skipWhile _ _)
  obtain ⟨hlt, hplace⟩ := stands_tag hc hopen hinside hclose
  have hreach := ((c.reaches_drop 1).trans hinside).trans hclose.reaches
  exact ⟨hreach, c.pos, _, Nat.le_refl _, Nat.le_of_lt hlt, ⟨hlt, hplace, Nat.le_of_lt hlt⟩,
    Nat.le_refl _⟩

/-! ### Comments -/

/-- All that is ahead of a cursor stands in the text, at the place from the cursor to its end. -/
theorem stands_rest (hc : c.In s.text) :
    Stands s.text (.ofList c.rest) (s.location c.pos c.stop) c.pos c.stop := by
  have hread : c.Reads c.rest c.toEnd := ⟨(List.append_nil _).symm, rfl⟩
  rw [show s.location c.pos c.stop = .ofChars s.text c.pos c.stop from s.index.location_eq _ _]
  exact hc.stands hread

/-- A directive stands in the text where the body of its comment does. -/
theorem sits_directive (hc : c.In s.text) (hne : c.rest ≠ []) {x : Directive}
    (hlocation : x.location = s.location c.pos c.stop)
    (hnames : ∀ n ∈ x.names, n.Within s.text c.pos c.stop) :
    Token.Sits s.text (.directive x) c.pos c.stop :=
  ⟨Nat.lt_add_of_pos_right (List.length_pos_iff.mpr hne), ⟨_, hlocation ▸ stands_rest hc⟩, hnames⟩

/-- The token that a comment makes is the comment itself, as a tag, or its body, as a directive. -/
theorem sits_comment {body after : Cursor} (hbody : body.In s.text) (hfirst : c.pos ≤ body.pos)
    (hlast : body.stop ≤ after.pos) (hlt : c.pos < after.pos)
    (hwhole : ∃ u, Stands s.text (.ofList ("<!--".toList ++ u ++ "-->".toList))
      (s.location c.pos after.pos) c.pos after.pos) {x : Token}
    (h : comment s (s.location c.pos after.pos) body = .ok (some x)) :
    Row (Token.Sits s.text) after.pos c.pos [x] := by
  have hle : body.pos ≤ body.stop := Nat.le_add_right _ _
  have hrest : body.Reaches (behindWord body) := body.reaches_drop _
  -- a virtual tag is the whole comment
  have hvirtual : ∀ {type ps}, Row (Payload.Sits s.text) after.pos c.pos ps →
      Row (Token.Sits s.text) after.pos c.pos [.element
        { tag := virtualTag, type := type, location := s.location c.pos after.pos, bindings := ps,
          isVirtual := true }] :=
    fun hps => ⟨c.pos, after.pos, Nat.le_refl _, Nat.le_of_lt hlt, ⟨hlt, hwhole, hps⟩,
      Nat.le_refl _⟩
  -- a directive is the body
  have hdirective : ∀ {d : Directive}, body.rest ≠ [] → d.location = s.location body.pos body.stop →
      (∀ n ∈ d.names, n.Within s.text body.pos body.stop) →
        Row (Token.Sits s.text) after.pos c.pos [.directive d] :=
    fun hne hlocation hnames => ⟨body.pos, body.stop, hfirst, hle,
      sits_directive hbody hne hlocation hnames, hlast⟩
  have hreference : ∀ {r c'}, typeReference s (behindWord body) = .ok (r, c') →
      r.name.Within s.text body.pos body.stop := by
    intro r c' hread
    obtain ⟨hreach, hname⟩ := within_typeReference (hbody.reaches hrest) hread
    exact hname.mono hrest.pos_le (hrest.trans hreach).pos_le_stop
  cases makes_of_comment h with
  | stop => exact hvirtual (Nat.le_of_lt hlt)
  | start hc =>
    -- the payload is all that is ahead behind the first word
    have hreach := hrest.trans ((behindWord body).reaches_skipWhile isBlank)
    rw [← hc] at hreach
    exact hvirtual ⟨_, _, Nat.le_trans hfirst hreach.pos_le, Nat.le_add_right _ _,
      stands_rest (hbody.reaches hreach), Nat.le_trans (Nat.le_of_eq hreach.stop_eq) hlast⟩
  | imports hne hread =>
    obtain ⟨hlocation, hreach, hnames⟩ := within_importDirective (hbody.reaches hrest) hread
    exact hdirective hne hlocation fun n hn =>
      (hnames n hn).mono hrest.pos_le (hrest.trans hreach).pos_le_stop
  | viewmodel hne hread =>
    exact hdirective hne rfl fun n hn => List.mem_singleton.mp hn ▸ hreference hread
  | context hne hread =>
    exact hdirective hne rfl fun n hn => List.mem_singleton.mp hn ▸ hreference hread
  | lint hne => exact hdirective hne rfl (List.forall_mem_nil _)

/-- A comment is what has been read from its opening to its end. -/
theorem sits_commentStep (hc : c.In s.text) (hopen : "<!--".toList <+: c.rest) {n : Nat}
    (hn : indexOf? "-->".toList (c.drop 4).rest = some n) {x : Option Token}
    (h : comment s (s.location c.pos ((c.drop 4).drop (n + 3)).pos)
      (commentBody (c.drop 4) n) = .ok x) :
    c.Reaches ((c.drop 4).drop (n + 3)) ∧
      Row (Token.Sits s.text) ((c.drop 4).drop (n + 3)).pos c.pos x.toList := by
  have hopening : c.Reads "<!--".toList (c.drop 4) := Cursor.reads_of_prefix hopen
  have hclosing : (c.drop 4).Reads ((c.drop 4).rest.take n ++ "-->".toList)
    ((c.drop 4).drop (n + 3)) := reads_of_indexOf? hn
  have hread := hopening.trans hclosing
  rw [← List.append_assoc] at hread
  refine ⟨hread.reaches, ?_⟩
  cases x with
  | none => exact hread.reaches.pos_le
  | some x =>
    have hbody := in_commentBody (hc.reads hopening) n
    obtain ⟨hfirst, hlast⟩ := commentBody_bounds (c.drop 4) n
    refine sits_comment hbody ?_ ?_ ?_ ⟨(c.drop 4).rest.take n, ?_⟩ h
    · exact Nat.le_trans hopening.reaches.pos_le hfirst
    · have hpos := hclosing.pos
      simp only [List.length_append] at hpos
      omega
    · have hpos := hopening.pos
      have hle := hclosing.reaches.pos_le
      have hfour : "<!--".toList.length = 4 := by decide
      omega
    · rw [show s.location c.pos _ = .ofChars s.text c.pos _ from s.index.location_eq _ _]
      exact hc.stands hread

/-! ### The whole view -/

theorem reaches_skipPast {terminator : String} {construct : Construct}
    (h : skipPast terminator construct c = .ok c') : c.Reaches c' := by
  unfold skipPast at h
  split at h
  · cases h
    exact c.reaches_drop _
  · cases h

/-- A construct makes a token that stands where the construct does, if it makes one. -/
theorem sits_step (hc : c.In s.text) {x : Option Token} (h : step s c = .ok (x, c')) :
    c.Reaches c' ∧ Row (Token.Sits s.text) c'.pos c.pos x.toList := by
  cases steps_of_step h with
  | text => exact ⟨c.reaches_skipWhile _, (c.reaches_skipWhile _).pos_le⟩
  | comment hopen hn hcomment => exact sits_commentStep hc hopen hn hcomment
  | skipped _ hafter => exact ⟨reaches_skipPast hafter, (reaches_skipPast hafter).pos_le⟩
  | endTag hopen htag => exact sits_endTag hc hopen htag
  | startTag hopen htag => exact sits_startTag hc hopen htag
  | bracket => exact ⟨c.reaches_drop 1, (c.reaches_drop 1).pos_le⟩

/-- The constructs of a view are read one after the other. -/
theorem sits_scan (fuel : Nat) (hc : c.In s.text) {xs : List Token} (h : scan s fuel c = .ok xs) :
    Row (Token.Sits s.text) c.stop c.pos xs := by
  induction fuel generalizing c xs with
  | zero =>
    cases h
    exact Nat.le_add_right _ _
  | succ fuel ih =>
    unfold scan at h
    split at h
    · cases h
      exact Nat.le_add_right _ _
    · obtain ⟨⟨x, after⟩, hstep, h⟩ := Except.bind_eq_ok.mp h
      dsimp only at h
      obtain ⟨rest, hrest, h⟩ := Except.bind_eq_ok.mp h
      obtain ⟨hafter, hx⟩ := sits_step hc hstep
      cases h
      have hrow := ih (hc.reaches hafter) hrest
      rw [hafter.stop_eq] at hrow
      exact hx.append hrow

/-- A void element that is made empty stays where it is. -/
theorem sits_normalizeToken {t : List Char} {x y : Token} {i j : Nat} (hx : x.Sits t i j)
    (h : normalizeToken x = some y) : y.Sits t i j := by
  rcases normalizeToken_cases h with rfl | ⟨e, rfl, -, rfl⟩
  · exact hx
  · exact ⟨hx.1, hx.2.place, hx.2.bindings⟩

theorem stripMark_eq_self {t : List Char} (h : t.head? ≠ some '\ufeff') : stripMark t = t := by
  unfold stripMark
  split
  · exact absurd rfl h
  · rfl

/-- The tokens of a view stand one behind the other. -/
theorem row_of_tokenize {file : String} {text : List Char} {options : Options}
    {tokenized : Tokenized} (h : tokenize file text options = .ok tokenized) :
    Row (Token.Sits (stripMark text)) (stripMark text).length 0 tokenized.tokens := by
  obtain ⟨s, xs, htext, hscan, -, htokens⟩ := scan_of_tokenize h
  have hrow := sits_scan _ (Cursor.in_start _) hscan
  have hlength : (⟨0, s.text⟩ : Cursor).stop = s.text.length := Nat.zero_add _
  rw [hlength] at hrow
  rw [htokens, ← htext]
  split
  · exact hrow.filterMap fun x y i j => sits_normalizeToken
  · exact hrow

end Markup

/-! ### Places by bytes -/

/-- The text at a place, whose ends are ends of characters, and whose lines and columns are those of
its ends. -/
structure Location.Shows (t : List Char) (l : Location) (u : List Char) : Prop where
  text : between? t l.start l.stop = some u
  counted : l = .ofRange t l.start l.stop

/-- A place is part of another one. -/
def Location.Inside (l whole : Location) : Prop := whole.start ≤ l.start ∧ l.stop ≤ whole.stop

/-- A tag is there with its brackets, and its payloads are there in it, one behind the other. -/
structure Element.Faithful (t : List Char) (e : Element) : Prop where
  brackets : ∃ body, e.location.Shows t (e.opening ++ body ++ e.closing)
  payloads : ∀ p ∈ e.bindings, p.location.Shows t p.text.toList ∧ p.location.Inside e.location
  ordered : e.bindings.Pairwise fun p q => p.location.stop ≤ q.location.start

/-- A directive is there, and its names are there in it. -/
structure Directive.Faithful (t : List Char) (d : Directive) : Prop where
  body : ∃ body, d.location.Shows t body
  names : ∀ n ∈ d.names, n.location.Shows t n.value.toList ∧ n.location.Inside d.location

/-- The parts of a token are where they say they are. -/
def Token.Faithful (t : List Char) : Token → Prop
  | .element e => e.Faithful t
  | .directive d => d.Faithful t

section

variable {t : List Char} {s : String} {l whole : Location} {i j k n : Nat}

theorem Stands.shows (h : Stands t s l i j) : l.Shows t s.toList :=
  ⟨h.between?_eq.1, h.between?_eq.2⟩

theorem Stands.start_eq (h : Stands t s l i j) : l.start = bytes (t.take i) := by
  rw [h.location]
  rfl

theorem Stands.stop_eq (h : Stands t s l i j) : l.stop = bytes (t.take j) := by
  rw [h.location]
  rfl

theorem Stands.inside {u : String} (h : Stands t s l i j) (hwhole : Stands t u whole k n)
    (hstart : k ≤ i) (hstop : j ≤ n) : l.Inside whole := by
  rw [Location.Inside, h.start_eq, h.stop_eq, hwhole.start_eq, hwhole.stop_eq]
  exact ⟨bytes_take_mono t hstart, bytes_take_mono t hstop⟩

theorem Element.Sits.faithful {e : Element} (h : e.Sits t i j) : e.Faithful t := by
  obtain ⟨body, hplace⟩ := h.place
  refine ⟨⟨body, ?_⟩, ?_, ?_⟩
  · simpa using hplace.shows
  · intro p hp
    obtain ⟨k, n, hk, -, hn, hsits⟩ := h.bindings.bounds hp
    exact ⟨hsits.shows, hsits.inside hplace hk hn⟩
  · refine h.bindings.pairwise.imp ?_
    rintro p q ⟨i₁, j₁, i₂, j₂, hp, hq, hle⟩
    rw [hp.stop_eq, hq.start_eq]
    exact bytes_take_mono t hle

theorem Directive.Sits.faithful {d : Directive} (h : d.Sits t i j) : d.Faithful t := by
  obtain ⟨body, hplace⟩ := h.place
  refine ⟨⟨_, hplace.shows⟩, ?_⟩
  intro m hm
  obtain ⟨k, n, hk, hn, hstands⟩ := h.names m hm
  exact ⟨hstands.shows, hstands.inside hplace hk hn⟩

theorem Token.Sits.exists_stands {x : Token} (h : x.Sits t i j) :
    ∃ u, Stands t u x.location i j := by
  cases x with
  | element e =>
    obtain ⟨body, hplace⟩ := h.2.place
    exact ⟨_, hplace⟩
  | directive d => exact h.2.place

theorem Token.Sits.faithful {x : Token} (h : x.Sits t i j) :
    x.location.start < x.location.stop ∧ x.location.stop ≤ bytes t ∧ x.Faithful t := by
  obtain ⟨u, hstands⟩ := h.exists_stands
  rw [hstands.start_eq, hstands.stop_eq]
  refine ⟨bytes_take_lt h.1 hstands.le_length, bytes_mono (List.take_prefix j t), ?_⟩
  cases x with
  | element e => exact h.2.faithful
  | directive d => exact h.2.faithful

end

/-- **Tokens tile the text faithfully.**  The tokens of a view are stretches of its text, without
the byte order mark it may begin with.  They are not empty and stand one behind the other.  A tag
has its brackets, and in it its payloads one behind the other, each with the text at its place.  A
directive has its names in it, each with the text at its place.  The lines and columns of every
place are those that counting from the beginning of the text gives. -/
theorem tokens_tile_text {file : String} {text : List Char} {options : Markup.Options}
    {tokenized : Markup.Tokenized} (h : Markup.tokenize file text options = .ok tokenized) :
    let t := Markup.stripMark text
    (∀ x ∈ tokenized.tokens,
      x.location.start < x.location.stop ∧ x.location.stop ≤ bytes t ∧ x.Faithful t) ∧
    tokenized.tokens.Pairwise fun x y =>
      x.location.start < y.location.start ∧ x.location.stop ≤ y.location.start := by
  intro t
  have hrow := Markup.row_of_tokenize h
  refine ⟨?_, ?_⟩
  · intro x hx
    obtain ⟨i, j, -, -, -, hsits⟩ := hrow.bounds hx
    exact hsits.faithful
  · refine hrow.pairwise.imp ?_
    rintro x y ⟨i, j, k, n, hx, hy, hle⟩
    obtain ⟨u, hxplace⟩ := hx.exists_stands
    obtain ⟨v, hyplace⟩ := hy.exists_stands
    have hstop : x.location.stop ≤ y.location.start := by
      rw [hxplace.stop_eq, hyplace.start_eq]
      exact bytes_take_mono t hle
    exact ⟨Nat.lt_of_lt_of_le hx.faithful.1 hstop, hstop⟩

/-- A view with a byte order mark, an import, a void element with two payloads, one of them without
quotes, and a virtual element. -/
def mixedView : String :=
  "\ufeff<!--ko-import View, \x7b a as b \x7d from 'm' -->\n\u00e9" ++
    "<BR data-bind=\u00e9:1 data-bind=''></br><!-- ko if: '\u00e9' --><!-- /ko -->"

theorem tokens_tile_text_mixedView :
    ∃ tokenized,
      Markup.tokenize "view.html" mixedView.toList ⟨["data-bind"], false⟩ = .ok tokenized ∧
      tokenized.tokens.map (fun x => (x.location.start, x.location.stop)) =
        [(4, 39), (46, 78), (83, 103), (103, 115)] ∧
      (∀ x ∈ tokenized.tokens, x.Faithful (Markup.stripMark mixedView.toList)) ∧
      tokenized.tokens.Pairwise fun x y => x.location.stop ≤ y.location.start := by
  have hview : (Markup.tokenize "view.html" mixedView.toList ⟨["data-bind"], false⟩).toOption.map
      (fun tokenized => tokenized.tokens.map fun x => (x.location.start, x.location.stop)) =
        some [(4, 39), (46, 78), (83, 103), (103, 115)] := by
    decide +kernel
  obtain ⟨tokenized, ht, hplaces⟩ := Option.map_eq_some_iff.mp hview
  have htokenize := Except.toOption_eq_some.mp ht
  obtain ⟨hall, hordered⟩ := tokens_tile_text htokenize
  exact ⟨tokenized, htokenize, hplaces, fun x hx => (hall x hx).2.2, hordered.imp And.right⟩

end ViewLint
