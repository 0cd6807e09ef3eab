import ViewLint.Proofs.Markup.Constructs

/-!
# Raw text

The content of a script or of a style sheet is not markup.  It is passed over up to the first place
where the text looks like the end tag of the element, in whatever case, and there an end tag is
read.  The place is found by the beginning of the tag, up to its name; the name that is read may go
on behind that, and then the end tag is one of another element.

## Main definitions

* `Location.behind` — the text behind a place.
* `Markup.rawEnd?` — where raw content ends.
* `Markup.nameRest` — by what the name of the end tag there is longer than that of the element.

## Main results

* `Markup.continuesTag_toLower` — case does not matter to what is a name.
* `Markup.endTag_of_rawEnd?` — the end tag behind raw content.
* `raw_text_makes_no_token_iff` — what is read behind the start tag of a raw element, and when
  that is its own end tag.
-/

namespace ViewLint

open Text

/-- The text behind a place. -/
def Location.behind (t : List Char) (l : Location) : List Char := t.drop (upTo l.stop t).length

namespace Markup

/-- The number of characters before the end of raw content: before the first place where the text
begins, in whatever case, like the end tag of the element. -/
def rawEnd? (tag : String) (body : List Char) : Option Nat :=
  indexOf? ('<' :: '/' :: tag.toList) (lower body)

/-- The characters by which the name of the end tag at a place is longer than that of the
element. -/
def nameRest (tag : String) (body : List Char) (n : Nat) : List Char :=
  (body.drop (n + 2 + tag.length)).takeWhile continuesTag

/-! ### Case -/

theorem toLower_eq_self {c : Char} (h : c.isUpper = false) : c.toLower = c :=
  dif_neg (of_decide_eq_false h)

theorem isLower_toLower {c : Char} (h : c.isUpper = true) : c.toLower.isLower = true := by
  have hupper : 65 ≤ c.val ∧ c.val ≤ 90 := of_decide_eq_true h
  have hval : c.toLower.val = c.val + 32 := congrArg Char.val (dif_pos hupper)
  have hlower : 97 ≤ c.toLower.val ∧ c.toLower.val ≤ 122 := by
    rw [hval]
    simp only [UInt32.le_iff_toNat_le, UInt32.toNat_add] at hupper ⊢
    simp at hupper ⊢
    omega
  exact Bool.and_eq_true_iff.mpr ⟨decide_eq_true hlower.1, decide_eq_true hlower.2⟩

theorem isAlpha_toLower {c : Char} (h : c.isUpper = true) : c.toLower.isAlpha = c.isAlpha := by
  change (c.toLower.isUpper || c.toLower.isLower) = (c.isUpper || c.isLower)
  rw [h, isLower_toLower h, Bool.or_true, Bool.true_or]

/-- What goes on with a name does so in either case. -/
theorem continuesTag_toLower (c : Char) : continuesTag c.toLower = continuesTag c := by
  cases h : c.isUpper with
  | false => rw [toLower_eq_self h]
  | true =>
    have halpha : c.isAlpha = true := Bool.or_eq_true_iff.mpr (.inl h)
    simp [continuesTag, Char.isAlphanum, isAlpha_toLower h, halpha]

theorem beginsTag_toLower (c : Char) : beginsTag c.toLower = beginsTag c := by
  cases h : c.isUpper with
  | false => rw [toLower_eq_self h]
  | true =>
    have halpha : c.isAlpha = true := Bool.or_eq_true_iff.mpr (.inl h)
    simp [beginsTag, isAlpha_toLower h, halpha]

/-- What is no small letter in small letters is itself. -/
theorem eq_of_toLower_eq {c d : Char} (hd : d.isLower = false) (h : c.toLower = d) : c = d := by
  cases hc : c.isUpper with
  | false => rwa [toLower_eq_self hc] at h
  | true =>
    have hlower := isLower_toLower hc
    rw [h, hd] at hlower
    cases hlower

/-! ### The end of raw content -/

variable {s : Source} {c c' : Cursor}

/-- The tags of the elements with raw content. -/
def rawTags : List String := ["script", "style"]

/-- The names of raw elements begin with a character that can begin a name, and go on with such that
can go on with one. -/
theorem exists_rawTag {tag : String} (h : tag ∈ rawTags) :
    ∃ first more, tag.toList = first :: more ∧ beginsTag first = true ∧
      ∀ x ∈ first :: more, continuesTag x = true := by
  simp only [rawTags, List.mem_cons, List.not_mem_nil, or_false] at h
  rcases h with rfl | rfl
  · exact ⟨'s', "cript".toList, by decide, by decide, List.all_eq_true.mp (by decide)⟩
  · exact ⟨'s', "tyle".toList, by decide, by decide, List.all_eq_true.mp (by decide)⟩

/-- No void element has a name that begins like that of a raw one. -/
theorem append_not_mem_voidTags {tag : String} (h : tag ∈ rawTags) (more : String) :
    tag ++ more ∉ voidTags := by
  intro hvoid
  have hall : ∀ void ∈ voidTags, ∀ raw ∈ rawTags, ¬ raw.toList <+: void.toList := by decide
  exact hall _ hvoid _ h ⟨more.toList, by rw [String.toList_append]⟩

/-- What looks like the end tag of an element, in whatever case, has its brackets and its name. -/
theorem exists_of_prefix_lower {name rest : List Char} (h : '<' :: '/' :: name <+: lower rest) :
    ∃ name', name'.length = name.length ∧ lower name' = name ∧
      rest = '<' :: '/' :: (name' ++ rest.drop (2 + name.length)) := by
  obtain ⟨more, hmore⟩ := h
  unfold lower at hmore
  obtain ⟨x, rest, rfl, hx, hmore⟩ := List.map_eq_cons_iff.mp hmore.symm
  obtain ⟨y, rest, rfl, hy, hmore⟩ := List.map_eq_cons_iff.mp hmore
  obtain ⟨name', rest, rfl, hname, -⟩ := List.map_eq_append_iff.mp hmore
  obtain rfl := eq_of_toLower_eq (by decide) hx
  obtain rfl := eq_of_toLower_eq (by decide) hy
  have hlength : name'.length = name.length := by rw [← hname, List.length_map]
  refine ⟨name', hlength, hname, ?_⟩
  rw [Nat.add_comm, ← hlength]
  simp

theorem step_of_closing {rest : List Char} (h : c.rest = '<' :: '/' :: rest) :
    step s c = (endTag s c).map fun (t, c) => (some t, c) := by
  simp [step, Cursor.startsWith, h, List.isPrefixOf]

/-- The name of a tag goes on as long as its characters can be part of a name. -/
theorem tagName?_append {first : Char} {more rest : List Char} (hfirst : beginsTag first = true)
    (hmore : ∀ x ∈ more, continuesTag x = true) :
    tagName? (first :: more ++ rest) = some (first :: more ++ rest.takeWhile continuesTag) := by
  rw [List.cons_append, tagName?, if_pos hfirst, List.takeWhile_append_of_pos hmore,
    List.cons_append]

/-- Where raw content ends, an end tag is read, whose name begins like that of the element. -/
theorem endTag_of_rawEnd? (hhtml : s.dialect = .html) {tag : String} (htag : tag ∈ rawTags)
    {n : Nat} (hn : rawEnd? tag c.rest = some n) {x : Option Token}
    (h : step s (c.drop n) = .ok (x, c')) :
    ∃ e, x = some (.element e) ∧ e.type = .stop ∧ e.isVirtual = false ∧
      e.location = s.location (c.pos + n) c'.pos ∧
      e.tag = tag ++ .ofList (lower (nameRest tag c.rest n)) := by
  obtain ⟨hle, hprefix⟩ := prefix_of_indexOf? hn
  rw [lower, List.length_map] at hle
  rw [lower, ← List.map_drop] at hprefix
  obtain ⟨name, hlength, hname, hrest⟩ := exists_of_prefix_lower hprefix
  rw [List.drop_drop, ← Nat.add_assoc, String.length_toList] at hrest
  -- the name at the place is that of the element and what follows it
  obtain ⟨first, more, hfirstmore, hbegins, hcontinues⟩ := exists_rawTag htag
  have hnamed : tagName? ((c.drop n).drop 2).rest = some (name ++ nameRest tag c.rest n) := by
    rw [hfirstmore, lower] at hname
    obtain ⟨first', more', rfl, rfl, rfl⟩ := List.map_eq_cons_iff.mp hname
    rw [show ((c.drop n).drop 2).rest = (c.rest.drop n).drop 2 from rfl, hrest]
    refine tagName?_append (by rw [← beginsTag_toLower, hbegins]) ?_
    intro x hx
    rw [← continuesTag_toLower]
    exact hcontinues _ (List.mem_cons_of_mem _ (List.mem_map_of_mem hx))
  rw [step_of_closing hrest] at h
  obtain ⟨⟨y, after⟩, hend, h⟩ := Except.map_eq_ok.mp h
  cases h
  obtain ⟨name', hname', -, -, rfl⟩ := exists_of_endTag hend
  obtain rfl := Option.some.inj (hnamed.symm.trans hname')
  refine ⟨_, rfl, rfl, rfl, ?_, ?_⟩
  · rw [pos_drop c hle]
  · dsimp only
    rw [Source.tag, hhtml]
    dsimp only
    rw [lower, List.map_append, ← lower, hname, String.ofList_append, String.ofList_toList]
    rfl

/-- What is a start tag with void elements made empty was the same before. -/
theorem eq_of_normalizeToken {x : Token} {e : Element} (h : normalizeToken x = some (.element e))
    (hstart : e.type = .start) : x = .element e := by
  rcases normalizeToken_cases h with rfl | ⟨e', -, -, hempty⟩
  · rfl
  · cases hempty
    cases hstart

/-- What is read from the end of raw content on: nothing, or first the end tag there. -/
theorem scan_skipRaw (hhtml : s.dialect = .html) {tag : String} (htag : tag ∈ rawTags) {fuel : Nat}
    (hfuel : (skipRaw tag c).rest.length ≤ fuel) {ys : List Token}
    (h : scan s fuel (skipRaw tag c) = .ok ys) :
    (rawEnd? tag c.rest = none → normalizeVoid ys = []) ∧
    ∀ n, rawEnd? tag c.rest = some n → ∃ e stop, (normalizeVoid ys).head? = some (.element e) ∧
      e.type = .stop ∧ e.isVirtual = false ∧ e.location = s.location (c.pos + n) stop ∧
      e.tag = tag ++ .ofList (lower (nameRest tag c.rest n)) := by
  refine ⟨fun hnone => ?_, fun n hn => ?_⟩
  · rw [show skipRaw tag c = c.toEnd by rw [skipRaw, ← rawEnd?, hnone]] at h
    cases fuel <;> cases h <;> rfl
  · have hskip : skipRaw tag c = c.drop n := by rw [skipRaw, ← rawEnd?, hn]
    obtain ⟨-, hprefix⟩ := prefix_of_indexOf? hn
    rw [lower, ← List.map_drop] at hprefix
    obtain ⟨name, -, -, hrest⟩ := exists_of_prefix_lower hprefix
    have hne : (c.drop n).rest ≠ [] := hrest.trans_ne (List.cons_ne_nil _ _)
    rw [hskip] at h hfuel
    cases fuel with
    | zero => exact absurd (List.length_eq_zero_iff.mp (Nat.le_zero.mp hfuel)) hne
    | succ fuel =>
      have hend : ¬ (c.drop n).atEnd = true := fun hend => hne (List.isEmpty_iff.mp hend)
      rw [scan, if_neg hend] at h
      obtain ⟨⟨x, after⟩, hstep, h⟩ := Except.bind_eq_ok.mp h
      obtain ⟨tokens, -, h⟩ := Except.bind_eq_ok.mp h
      obtain ⟨e, rfl, htype, hvirtual, hlocation, hname⟩ := endTag_of_rawEnd? hhtml htag hn hstep
      cases h
      refine ⟨e, after.pos, ?_, htype, hvirtual, hlocation, hname⟩
      have hvoid := append_not_mem_voidTags htag (.ofList (lower (nameRest tag c.rest n)))
      rw [← hname] at hvoid
      simp [normalizeVoid, normalizeToken, hvoid]

end Markup

open Markup

theorem start_location (s : Source) (i j : Nat) :
    (s.location i j).start = bytes (s.text.take i) := by
  rw [Source.location, TextIndex.location_eq]
  rfl

theorem stop_location (s : Source) (i j : Nat) : (s.location i j).stop = bytes (s.text.take j) := by
  rw [Source.location, TextIndex.location_eq]
  rfl

/-- The text behind a place is what is ahead of a cursor at its end. -/
theorem behind_location {s : Source} {c : Cursor} (hc : (⟨0, s.text⟩ : Cursor).Reaches c)
    (i : Nat) :
    (s.location i c.pos).behind s.text = c.rest := by
  obtain ⟨r, hr⟩ := hc
  have hrest : s.text = r ++ c.rest := hr.rest
  rw [Location.behind, stop_location, upTo_bytes_take, hr.pos, Nat.zero_add, hrest, List.take_left,
    List.drop_left]

theorem rest_of_reaches {s : Source} {c : Cursor} (hc : (⟨0, s.text⟩ : Cursor).Reaches c) :
    c.rest = s.text.drop c.pos := by
  obtain ⟨r, hr⟩ := hc
  have hrest : s.text = r ++ c.rest := hr.rest
  rw [hr.pos, Nat.zero_add, hrest, List.drop_left]

/-- **Raw content makes no tokens, and ends where the text looks like an end tag.**  Behind the
start tag of a script or of a style sheet the next token of an HTML view is the end tag at the first
place where the text begins, in whatever case, like an end tag of the element, and there is none if
there is no such place.  The end tag has the name that stands there, which may be longer than that
of the element.  So it is the end tag of the element, or there is none, just if the name stops where
that of the element does. -/
theorem raw_text_makes_no_token_iff {file : String} {text : List Char} {options : Options}
    {tokenized : Tokenized} (h : tokenize file text options = .ok tokenized)
    (hhtml : tokenized.dialect = .html) {i : Nat} {e : Element}
    (he : tokenized.tokens[i]? = some (.element e)) (hstart : e.type = .start)
    (hraw : e.tag = "script" ∨ e.tag = "style") :
    let body := e.location.behind (stripMark text)
    (rawEnd? e.tag body = none → tokenized.tokens[i + 1]? = none) ∧
    (∀ n, rawEnd? e.tag body = some n →
      ∃ e', tokenized.tokens[i + 1]? = some (.element e') ∧ e'.type = .stop ∧
        e'.isVirtual = false ∧ e'.location.start = e.location.stop + bytes (body.take n) ∧
        e'.tag = e.tag ++ .ofList (lower (nameRest e.tag body n))) ∧
    ((tokenized.tokens[i + 1]? = none ∨
        ∃ e', tokenized.tokens[i + 1]? = some (.element e') ∧ e'.type = .stop ∧ e'.tag = e.tag) ↔
      ∀ n, rawEnd? e.tag body = some n → nameRest e.tag body n = []) := by
  intro body
  obtain ⟨s, fuel, c₁, c₂, y, ys, htext, hdialect, hreach, hstep, hnormal, hfuel, hscan, hdrop⟩ :=
    exists_of_tokenize h hhtml he
  obtain rfl := eq_of_normalizeToken hnormal hstart
  have htag : e.tag ∈ rawTags := by simpa [rawTags] using hraw
  -- the token is a start tag of the text: comments and end tags make other ones
  have hopened : startTag s c₁ = .ok (.element e, c₂) := by
    rcases element_of_step hstep with ⟨-, hvirtual⟩ | hend | hopened
    · rw [hvirtual] at htag
      exact absurd htag (by decide)
    · rw [(element_of_endTag hend).1] at hstart
      cases hstart
    · exact hopened
  obtain ⟨-, after, hafter, hlocation, rfl⟩ :=
    element_of_startTag ((Cursor.in_start _).reaches hreach) hopened
  rw [if_pos (by simp [Source.isRaw, hdialect, hstart, hraw])] at hfuel hscan
  have hbody : body = after.rest := by
    rw [← behind_location (hreach.trans hafter) c₁.pos, ← hlocation, htext]
  rw [← List.head?_drop, hdrop, hbody]
  obtain ⟨hnone, hsome⟩ := scan_skipRaw hdialect htag hfuel hscan
  refine ⟨fun hend => by rw [hnone hend]; rfl, fun n hn => ?_, ?_⟩
  · obtain ⟨e', stop, hhead, htype, hvirtual, hlocation', htag'⟩ := hsome n hn
    refine ⟨e', hhead, htype, hvirtual, ?_, htag'⟩
    rw [hlocation', hlocation, start_location, stop_location, rest_of_reaches (hreach.trans hafter),
      List.take_add, bytes_append]
  · cases hend : rawEnd? e.tag after.rest with
    | none => simp [hnone hend]
    | some n =>
      obtain ⟨e', stop, hhead, htype, -, -, htag'⟩ := hsome n hend
      have hsame : e'.tag = e.tag ↔ nameRest e.tag after.rest n = [] := by
        rw [htag', ← String.toList_inj, String.toList_append]
        simp [lower]
      simp [hhead, htype, hsame]

/-- A view with tags in the text of a script. -/
def scriptView : String := "<script>a </b> '</p>' </SCRIPT>"

theorem raw_text_makes_no_token_iff_scriptView :
    ∃ tokenized e,
      tokenize "view.html" scriptView.toList ⟨["data-bind"], false⟩ = .ok tokenized ∧
      tokenized.dialect = .html ∧ tokenized.tokens[0]? = some (.element e) ∧ e.type = .start ∧
      e.tag = "script" ∧
      ∃ e', tokenized.tokens[1]? = some (.element e') ∧ e'.type = .stop ∧ e'.tag = "script" ∧
        e'.location.start = 22 := by
  have hview : (tokenize "view.html" scriptView.toList ⟨["data-bind"], false⟩).toOption.map
      (fun tokenized => (tokenized.dialect, tokenized.tokens[0]?)) =
        some (.html, some (.element ⟨"script", .start, ⟨⟨1, 0⟩, ⟨1, 8⟩, 0, 8⟩, [], false⟩)) := by
    decide +kernel
  obtain ⟨tokenized, ht, hread⟩ := Option.map_eq_some_iff.mp hview
  obtain ⟨hhtml, he⟩ := Prod.mk.inj hread
  have htokenize := Except.toOption_eq_some.mp ht
  obtain ⟨-, hsome, -⟩ := raw_text_makes_no_token_iff htokenize hhtml he rfl (.inl rfl)
  obtain ⟨e', he', htype, -, hstart, htag⟩ := hsome 14 (by decide +kernel)
  refine ⟨tokenized, _, htokenize, hhtml, he, rfl, rfl, e', he', htype, ?_, ?_⟩
  · rw [htag]
    decide +kernel
  · rw [hstart]
    decide +kernel

/-- The text of this script ends at the end tag of an element with a longer name. -/
theorem raw_text_ends_at_longer_name :
    (tokenize "view.html" "<script></scripty></script>".toList ⟨["data-bind"], false⟩).toOption.map
      (fun tokenized => (tokenized.dialect, tokenized.tokens)) =
        some (.html, [.element ⟨"script", .start, ⟨⟨1, 0⟩, ⟨1, 8⟩, 0, 8⟩, [], false⟩,
          .element ⟨"scripty", .stop, ⟨⟨1, 8⟩, ⟨1, 18⟩, 8, 18⟩, [], false⟩,
          .element ⟨"script", .stop, ⟨⟨1, 18⟩, ⟨1, 27⟩, 18, 27⟩, [], false⟩]) := by
  decide +kernel

end ViewLint
