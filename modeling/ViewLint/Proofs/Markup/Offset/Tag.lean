import ViewLint.Proofs.Markup.Offset.Basic
import ViewLint.Proofs.Markup.RawText

/-!
# Tags by offsets

Start tags with their attributes, and end tags, read byte by byte.  The bytes at which names and
values end are those of ASCII characters, so reading stops between characters only.  Each attribute
takes a byte, so the loop over them ends before the bytes of the view do.

## Main definitions

* `Markup.Offset.attributeStep`, `Markup.attributeStep` — one turn of the loop over the attributes,
  by offsets and by cursors.

## Main results

* `Markup.Offset.pos_lt_of_attributeStep` — a turn that is not the last one moves on.
* `Markup.Offset.agrees_endTag`, `Markup.Offset.agrees_startTag` — whole tags.
-/

namespace ViewLint.Markup

open Text

theorem isPrefixOf_cons_of_ne {x y : Char} (p t : List Char) (h : x ≠ y) :
    (x :: p).isPrefixOf (y :: t) = false := by
  simp [List.isPrefixOf, h]

/-- A character with which no attribute can begin. -/
def refusesName (x : Char) : Bool := x == '\x22' || x == '\x27' || x == '='

/-- One turn of the loop over the attributes of a start tag: the type of the tag if it ends, or else
the binding that has been read, if any. -/
def attributeStep (s : Source) (c : Cursor) : Except Fault ((TagType ⊕ Option Payload) × Cursor) :=
  let c := c.skipWhile isMarkupBlank
  if c.rest = [] then stopAt c (.literal ">") .endOfInput .openStartTag
  else if "/>".toList.isPrefixOf c.rest then .ok (.inl .empty, c.drop 2)
  else if ">".toList.isPrefixOf c.rest then .ok (.inl .start, c.drop 1)
  else if "/".toList.isPrefixOf c.rest then .ok (.inr none, c.drop 1)
  else if c.rest.head?.any refusesName then stopAt c .attributeName .endOfInput .startTag
  else (oneAttribute s c).map fun x => (.inr x.1, x.2)

/-- The loop over the attributes, turn by turn. -/
theorem attributes_succ (s : Source) (fuel : Nat) (c : Cursor) :
    attributes s (fuel + 1) c = attributeStep s c >>= fun
      | (.inl type, c) => .ok (type, [], c)
      | (.inr binding, c) =>
        (attributes s fuel c).map fun x => (x.1, binding.toList ++ x.2.1, x.2.2) := by
  rw [attributes, attributeStep]
  dsimp only
  generalize c.skipWhile isMarkupBlank = c
  split
  · next hrest => simp only [hrest]; rfl
  · next hrest => simp only [hrest]; rfl
  · next hrest => simp only [hrest]; rfl
  · next rest hempty hrest =>
    have hslash : "/>".toList.isPrefixOf ('/' :: rest) = false := by
      cases rest with
      | nil => rfl
      | cons x rest =>
        have hx : '>' ≠ x := fun hx => hempty rest (by rw [hx])
        exact isPrefixOf_cons_of_ne [] rest hx
    simp only [hrest, hslash]
    show attributes s fuel (c.drop 1) = (attributes s fuel (c.drop 1)).map fun x => x
    cases attributes s fuel (c.drop 1) <;> rfl
  · next first rest hempty hclose hslash hrest =>
    have hslash' : '/' ≠ first := fun h => hslash h.symm
    have h₁ : "/>".toList.isPrefixOf (first :: rest) = false := isPrefixOf_cons_of_ne _ _ hslash'
    have h₂ : ">".toList.isPrefixOf (first :: rest) = false :=
      isPrefixOf_cons_of_ne _ _ fun h => hclose h.symm
    have h₃ : "/".toList.isPrefixOf (first :: rest) = false := isPrefixOf_cons_of_ne _ _ hslash'
    have hrefuses : (first :: rest).head?.any refusesName = true ↔
        first = '\x22' ∨ first = '\x27' ∨ first = '=' := by
      simp [refusesName, or_assoc]
    simp only [hrest, h₁, h₂, h₃, hrefuses]
    rw [if_neg (List.cons_ne_nil first rest)]
    show _ = (if first = '\x22' ∨ first = '\x27' ∨ first = '=' then _ else _) >>= _
    split
    · rfl
    · cases oneAttribute s c with
      | error f => rfl
      | ok x =>
        show (attributes s fuel x.2 >>= _) = (attributes s fuel x.2).map _
        cases attributes s fuel x.2 <;> rfl

namespace Offset

/-- The blanks of markup. -/
def blanks : List Char := [' ', '\t', '\n', '\x0c', '\r']

/-- The characters that end the name of an attribute. -/
def nameEnds : List Char := ['=', '>', '/', '\x22', '\x27'] ++ blanks

/-- The characters that end a value without quotes. -/
def valueEnds : List Char := '>' :: blanks

/-- Moves an offset over the blanks of markup. -/
def skipMarkupBlanks (s : Source) (pos : Nat) : Nat := skipBytes s (isByteOf blanks) pos

/-- An end tag, at its opening bracket. -/
def endTag (s : Source) (pos : Nat) : Checked (Token × Nat) := do
  let ahead ← cutFrom s (pos + 2)
  match tagName? ahead with
  | none => stopAt s (pos + 2) .tagName .endTag
  | some name =>
    let last := skipMarkupBlanks s (pos + 2 + bytes name)
    if byteAt? s last = some '>'.toUInt8 then
      let covered ← place s pos (last + 1)
      return (.element
        { tag := s.tag name, type := .stop, location := covered, bindings := [],
          isVirtual := false }, last + 1)
    else stopAt s last (.literal ">") .endTag

/-! ### Attributes -/

/-- The value of an attribute: the offsets between which it stands. -/
def attributeValue (s : Source) (pos : Nat) : Checked ((Nat × Nat) × Nat) :=
  match byteAt? s pos with
  | none => stopAt s pos .attributeValue .startTag
  | some quote =>
    if quote = '\x22'.toUInt8 ∨ quote = '\x27'.toUInt8 then do
      let inside ← cutFrom s (pos + 1)
      match indexOf? [Char.ofUInt8 quote] inside with
      | some n =>
        let last := pos + 1 + bytes (inside.take n)
        return ((pos + 1, last), last + 1)
      | none => stopAt s (bytes s.text) (.closingQuote (Char.ofUInt8 quote)) .openValue
    else
      let last := skipBytes s (!isByteOf valueEnds ·) pos
      return ((pos, last), last)

/-- An attribute, at its name: the binding it holds, if any. -/
def oneAttribute (s : Source) (pos : Nat) : Checked (Option Payload × Nat) := do
  let named := skipBytes s (!isByteOf nameEnds ·) pos
  let name ← cut s pos named
  let sign := skipMarkupBlanks s named
  if byteAt? s sign ≠ some '='.toUInt8 then return (none, sign)
  else
    let ((start, stop), after) ← attributeValue s (skipMarkupBlanks s (sign + 1))
    if s.isBinding name then
      let covered ← place s start stop
      let text ← cut s start stop
      return (some ⟨covered, .ofList text⟩, after)
    else return (none, after)

/-- One turn of the loop over the attributes of a start tag: the type of the tag if it ends, or else
the binding that has been read, if any. -/
def attributeStep (s : Source) (pos : Nat) : Checked ((TagType ⊕ Option Payload) × Nat) := do
  let pos := skipMarkupBlanks s pos
  let ahead ← cutFrom s pos
  if ahead = [] then stopAt s pos (.literal ">") .openStartTag
  else if "/>".toList.isPrefixOf ahead then return (.inl .empty, pos + 2)
  else if ">".toList.isPrefixOf ahead then return (.inl .start, pos + 1)
  else if "/".toList.isPrefixOf ahead then return (.inr none, pos + 1)
  else if ahead.head?.any refusesName then stopAt s pos .attributeName .startTag
  else
    let (binding, after) ← oneAttribute s pos
    return (.inr binding, after)

/-- The attributes of a start tag and its end.  Reading goes wrong if they take more than `fuel`
turns. -/
def attributes (s : Source) : Nat → Nat → Checked ((TagType × List Payload) × Nat)
  | 0, _ => wrong
  | fuel + 1, pos => do
    match ← attributeStep s pos with
    | (.inl type, after) => return ((type, []), after)
    | (.inr binding, after) =>
      let ((type, bindings), last) ← attributes s fuel after
      return ((type, binding.toList ++ bindings), last)

/-! ### Start tags -/

/-- The offset of the tag that ends raw content, or the end of the view. -/
def skipRaw (s : Source) (tag : String) (pos : Nat) : Checked Nat := do
  let lowered := lower (← cutFrom s pos)
  match indexOf? ('<' :: '/' :: tag.toList) lowered with
  | some n => return pos + bytes (lowered.take n)
  | none => return bytes s.text

/-- A start tag, at its opening bracket. -/
def startTag (s : Source) (pos : Nat) : Checked (Token × Nat) := do
  let ahead ← cutFrom s (pos + 1)
  match tagName? ahead with
  | none => stopAt s (pos + 1) .tagName .startTag
  | some name =>
    let ((type, bindings), after) ← attributes s (bytes s.text + 1) (pos + 1 + bytes name)
    let tag := s.tag name
    let covered ← place s pos after
    let token : Token := .element
      { tag := tag, type := type, location := covered, bindings := bindings, isVirtual := false }
    if s.isRaw tag type then
      let last ← skipRaw s tag after
      return (token, last)
    else return (token, after)

/-! ### Agreement -/

variable {s : Source} {c c' : Cursor}

theorem ascii_of_all {xs : List Char} (h : xs.all (fun y => decide (Ascii y)) = true) :
    ∀ y ∈ xs, Ascii y :=
  fun y hy => of_decide_eq_true (List.all_eq_true.mp h y hy)

theorem contains_blanks (x : Char) : blanks.contains x = isMarkupBlank x := by
  rw [Bool.eq_iff_iff]
  simp [blanks, isMarkupBlank, or_assoc]

theorem contains_nameEnds (x : Char) : nameEnds.contains x = endsAttributeName x := by
  rw [Bool.eq_iff_iff]
  simp [nameEnds, endsAttributeName, ← contains_blanks, or_assoc]

theorem contains_valueEnds (x : Char) : valueEnds.contains x = endsBareValue x := by
  rw [Bool.eq_iff_iff]
  simp [valueEnds, endsBareValue, ← contains_blanks]

theorem skipMarkupBlanks_eq (h : s.Holds s.text.length c) :
    skipMarkupBlanks s (s.offset c.pos) = s.offset (c.skipWhile isMarkupBlank).pos :=
  skipBytes_isByteOf h (ascii_of_all (by decide)) contains_blanks

theorem prefix_of_tagName? {t name : List Char} (h : tagName? t = some name) : name <+: t := by
  cases t with
  | nil => cases h
  | cons x t =>
    rw [tagName?] at h
    split at h
    · cases h
      exact (List.prefix_cons_inj x).mpr (List.takeWhile_prefix _)
    · cases h

theorem agrees_endTag (h : s.Holds s.text.length c) (hopen : "</".toList <+: c.rest) :
    Agrees s c (endTag s (s.offset c.pos)) (Markup.endTag s c) := by
  have hreach := c.reaches_drop 2
  have h₁ := h.reaches hreach
  have hnamed : s.offset (c.drop 2).pos = s.offset c.pos + 2 :=
    Source.offset_reads h.inside (Cursor.reads_of_prefix hopen)
  rw [endTag, ← hnamed, cutFrom_rest h₁, pure_bind, Markup.endTag]
  dsimp only
  cases hname : tagName? (c.drop 2).rest with
  | none => exact agrees_stopAt h₁ _ _
  | some name =>
    have hread := Cursor.reads_of_prefix (prefix_of_tagName? hname)
    have h₂ := h₁.reaches hread.reaches
    have hskip := ((c.drop 2).drop name.length).reaches_skipWhile isMarkupBlank
    have h₃ := h₂.reaches hskip
    dsimp only
    rw [← Source.offset_reads h₁.inside hread, skipMarkupBlanks_eq h₂]
    have hreach₃ := hreach.trans (hread.reaches.trans hskip)
    generalize ((c.drop 2).drop name.length).skipWhile isMarkupBlank = last at h₃ hreach₃
    have hbyte := byteAt?_eq_some_iff (x := '>') h₃ (by decide)
    simp only [hbyte]
    split
    · next hclose =>
      rw [← Source.offset_drop_one h₃.inside (by decide) hclose, place_eq, pure_bind,
        ← Source.location_eq_ofRange]
      exact .read rfl (hreach₃.trans (last.reaches_drop 1))
    · exact agrees_stopAt h₃ _ _

/-- The byte with which a value begins tells whether it has quotes. -/
theorem agrees_attributeValue (h : s.Holds s.text.length c) :
    Agrees s c (attributeValue s (s.offset c.pos))
      ((Markup.attributeValue c).map fun x => ((s.offset x.1, s.offset x.2.1), x.2.2)) := by
  rw [attributeValue, Markup.attributeValue]
  cases hrest : c.rest with
  | nil =>
    have hbyte : byteAt? s (s.offset c.pos) = none := by rw [byteAt?_eq h, hrest]; rfl
    rw [hbyte]
    exact agrees_stopAt h _ _
  | cons quote t =>
    have hfirst : c.rest.head? = some quote := by rw [hrest]; rfl
    dsimp only
    by_cases hquote : quote = '\x22' ∨ quote = '\x27'
    · have hsize : Ascii quote := by
        rcases hquote with rfl | rfl <;> decide
      have hmark : Char.ofUInt8 quote.toUInt8 = quote ∧
          (quote.toUInt8 = '\x22'.toUInt8 ∨ quote.toUInt8 = '\x27'.toUInt8) := by
        rcases hquote with rfl | rfl <;> decide
      have h₁ := h.reaches (c.reaches_drop 1)
      have hinside : (c.drop 1).rest = t := by rw [Cursor.drop, hrest]; rfl
      rw [(byteAt?_eq_some_iff h hsize).mpr hfirst]
      dsimp only
      rw [if_pos hmark.2, if_pos hquote, hmark.1, ← Source.offset_drop_one h.inside hsize hfirst,
        cutFrom_rest h₁, pure_bind, hinside]
      cases hn : indexOf? [quote] t with
      | none =>
        dsimp only
        rw [h.bytes_eq]
        exact agrees_stopAt (h.reaches c.reaches_toEnd) _ _
      | some k =>
        obtain ⟨hread, hclose, hpos⟩ := Cursor.reads_quoted hrest hn
        have hopen := Cursor.reads_head hfirst
        have hlast := Source.offset_reads h₁.inside hread
        have hafter := Source.offset_reads (h₁.reaches hread.reaches).inside hclose
        rw [bytes_cons, hsize.utf8Size_eq, bytes_nil] at hafter
        dsimp only
        rw [← hlast, ← hafter, hpos, show (c.drop 1).pos = c.pos + 1 from hopen.pos]
        exact .read rfl (hopen.reaches.trans (hread.reaches.trans hclose.reaches))
    · cases hbyte : byteAt? s (s.offset c.pos) with
      | none =>
        rw [byteAt?_eq h, hrest, encode_cons, List.head?_eq_none_iff,
          List.append_eq_nil_iff] at hbyte
        exact absurd hbyte.1 String.utf8EncodeChar_ne_nil
      | some b =>
        have hb : ¬(b = '\x22'.toUInt8 ∨ b = '\x27'.toUInt8) := by
          rintro (rfl | rfl)
          · have hhead := (byteAt?_eq_some_iff h (by decide)).mp hbyte
            exact hquote (.inl (Option.some_inj.mp (hfirst.symm.trans hhead)))
          · have hhead := (byteAt?_eq_some_iff h (by decide)).mp hbyte
            exact hquote (.inr (Option.some_inj.mp (hfirst.symm.trans hhead)))
        have hread :=
          Cursor.reads_of_prefix (List.takeWhile_prefix (l := c.rest) (!endsBareValue ·))
        have hlast : skipBytes s (!isByteOf valueEnds ·) (s.offset c.pos) =
            s.offset (c.drop (c.rest.takeWhile (!endsBareValue ·)).length).pos :=
          skipBytes_not_isByteOf h (ascii_of_all (by decide)) contains_valueEnds
        dsimp only
        rw [if_neg hb, if_neg hquote, hlast, ← hrest, ← hread.pos]
        exact .read rfl hread.reaches

theorem agrees_oneAttribute (h : s.Holds s.text.length c) :
    Agrees s c (oneAttribute s (s.offset c.pos)) (Markup.oneAttribute s c) := by
  have hread := Cursor.reads_of_prefix (List.takeWhile_prefix (l := c.rest) (!endsAttributeName ·))
  have hname : skipBytes s (!isByteOf nameEnds ·) (s.offset c.pos) =
      s.offset (c.drop (c.rest.takeWhile (!endsAttributeName ·)).length).pos :=
    skipBytes_not_isByteOf h (ascii_of_all (by decide)) contains_nameEnds
  have h₁ := h.reaches hread.reaches
  have hskip := Cursor.reaches_skipWhile
    (c.drop (c.rest.takeWhile (!endsAttributeName ·)).length) isMarkupBlank
  have h₂ := h₁.reaches hskip
  have hreach := hread.reaches.trans hskip
  rw [oneAttribute, hname, cut_reads h.inside hread, pure_bind, skipMarkupBlanks_eq h₁,
    Markup.oneAttribute]
  dsimp only
  generalize c.rest.takeWhile (!endsAttributeName ·) = name at h₂ hreach ⊢
  generalize (c.drop name.length).skipWhile isMarkupBlank = sign at h₂ hreach ⊢
  have hbyte := byteAt?_eq_some_iff (x := '=') h₂ (by decide)
  simp only [ne_eq, hbyte]
  split
  · exact .read rfl hreach
  · next hsign =>
    have hsign := not_not.mp hsign
    have hopen := (sign.reaches_drop 1).trans (Cursor.reaches_skipWhile _ isMarkupBlank)
    have h₃ := h₂.reaches hopen
    rw [← Source.offset_drop_one h₂.inside (by decide) hsign,
      skipMarkupBlanks_eq (h₂.reaches (sign.reaches_drop 1))]
    refine Agrees.after ?_ (hreach.trans hopen)
    generalize (sign.drop 1).skipWhile isMarkupBlank = c₃ at h₃
    refine (agrees_attributeValue h₃).bind_of_map ?_
    rintro ⟨i, j, after⟩ hvalue hafter
    obtain ⟨c₄, c₅, hstart, ⟨r, hr⟩, -, rfl, rfl⟩ := exists_of_attributeValue hvalue
    have h₄ := h₃.reaches hstart
    dsimp only
    split
    · rw [place_eq, pure_bind, cut_reads h₄.inside hr, pure_bind, Source.ident_reads h₄.inside hr]
      exact .read rfl (.refl after)
    · exact .read rfl (.refl after)

/-- A turn that is not the last one moves on. -/
theorem pos_lt_of_attributeStep (hc : c.In s.text) {p : Option Payload}
    (h : Markup.attributeStep s c = .ok (.inr p, c')) : c.pos < c'.pos := by
  have hskip := c.reaches_skipWhile isMarkupBlank
  have hfirst := fun x => c.head?_skipWhile isMarkupBlank (x := x)
  rw [Markup.attributeStep] at h
  generalize c.skipWhile isMarkupBlank = start at h hskip hfirst
  have hle := hskip.pos_le
  split at h
  · cases h
  split at h
  · cases h
  split at h
  · cases h
  split at h
  · next hslash =>
    cases h
    have hread := Cursor.reads_of_prefix (List.isPrefixOf_iff_prefix.mp hslash)
    have hpos : (start.drop 1).pos = start.pos + 1 := hread.pos
    omega
  split at h
  · cases h
  next hne hempty hclose hslash hrefuses =>
  obtain ⟨⟨p', after⟩, hone, hafter⟩ := Except.map_eq_ok.mp h
  cases hafter
  -- the name has a character, since the first one ends no name
  have hnamed := (row_oneAttribute (hc.reaches hskip) hone).1.pos_le
  cases hrest : start.rest with
  | nil => exact absurd hrest hne
  | cons first rest =>
    have hbracket : first ≠ '>' := fun hx => hclose (by rw [hrest, hx]; rfl)
    have hslash : first ≠ '/' := fun hx => hslash (by rw [hrest, hx]; rfl)
    have hrefuses : refusesName first = false := by
      rw [hrest] at hrefuses
      simpa using hrefuses
    have hblank := hfirst first (by rw [hrest]; rfl)
    have hstarts : endsAttributeName first = false := by
      simp only [refusesName, Bool.or_eq_false_iff] at hrefuses
      simp [endsAttributeName, hblank, hrefuses, hbracket, hslash]
    have hlength : 0 < (start.rest.takeWhile (!endsAttributeName ·)).length := by
      rw [hrest, List.takeWhile_cons_of_pos (by simp [hstarts])]
      exact Nat.succ_pos _
    rw [pos_drop _ (List.takeWhile_prefix _).length_le] at hnamed
    show c.pos < after.pos
    omega

/-- A symbol that stands ahead is left behind by as many bytes as it has. -/
theorem agrees_symbol {α : Type} {symbol : List Char} (h : s.Holds s.text.length c)
    (hahead : symbol.isPrefixOf c.rest) (a : α) :
    Agrees s c (pure (a, s.offset c.pos + bytes symbol)) (.ok (a, c.drop symbol.length)) := by
  have hread := Cursor.reads_of_prefix (List.isPrefixOf_iff_prefix.mp hahead)
  exact .read (Source.offset_reads h.inside hread).symm hread.reaches

/-- One turn of the loop over the attributes. -/
theorem agrees_attributeStep (h : s.Holds s.text.length c) :
    Agrees s c (attributeStep s (s.offset c.pos)) (Markup.attributeStep s c) := by
  have hskip := c.reaches_skipWhile isMarkupBlank
  have h₁ := h.reaches hskip
  rw [attributeStep, Markup.attributeStep]
  rw [skipMarkupBlanks_eq h, cutFrom_rest h₁, pure_bind]
  generalize c.skipWhile isMarkupBlank = c₁ at h₁ hskip ⊢
  split
  · exact agrees_stopAt h₁ _ _
  split
  · next hahead => exact (agrees_symbol h₁ hahead _).after hskip
  split
  · next hahead => exact (agrees_symbol h₁ hahead _).after hskip
  split
  · next hahead => exact (agrees_symbol h₁ hahead _).after hskip
  split
  · exact agrees_stopAt h₁ _ _
  exact ((agrees_oneAttribute h₁).map Sum.inr).after hskip

/-- The loop over the attributes ends before the bytes of the view do, since each turn takes a
character. -/
theorem agrees_attributes {fuel' fuel : Nat} (h : s.Holds s.text.length c)
    (hfuel' : c.rest.length < fuel') (hfuel : c.rest.length < fuel) :
    Agrees s c (attributes s fuel' (s.offset c.pos))
      ((Markup.attributes s fuel c).map fun x => ((x.1, x.2.1), x.2.2)) := by
  induction fuel' generalizing fuel c with
  | zero => exact absurd hfuel' (Nat.not_lt_zero _)
  | succ fuel' ih =>
    cases fuel with
    | zero => exact absurd hfuel (Nat.not_lt_zero _)
    | succ fuel =>
      rw [attributes, attributes_succ, Except.map_bind]
      refine (agrees_attributeStep h).bind ?_
      intro found c₁ hfound hreach
      cases found with
      | inl type => exact .read rfl (.refl c₁)
      | inr binding =>
        have hlt := pos_lt_of_attributeStep h.inside hfound
        have hstop := hreach.stop_eq
        rw [Cursor.stop, Cursor.stop] at hstop
        have hrest : Agrees s c₁ (attributes s fuel' (s.offset c₁.pos))
            ((Markup.attributes s fuel c₁).map fun x => ((x.1, x.2.1), x.2.2)) :=
          ih (h.reaches hreach) (by omega) (by omega)
        have hall := hrest.map fun x => (x.1, binding.toList ++ x.2)
        rw [Except.map_map] at hall
        show Agrees s c₁ _
          (((Markup.attributes s fuel c₁).map fun x => (x.1, binding.toList ++ x.2.1, x.2.2)).map
            fun x => ((x.1, x.2.1), x.2.2))
        rw [Except.map_map]
        exact hall

/-! ### Whole start tags -/

theorem utf8Size_toLower (x : Char) : x.toLower.utf8Size = x.utf8Size := by
  cases hx : x.isUpper with
  | false => rw [toLower_eq_self hx]
  | true =>
    have hupper : 65 ≤ x.val ∧ x.val ≤ 90 := of_decide_eq_true hx
    have hlower : decide (x.toLower.val ≤ 122) = true :=
      (Bool.and_eq_true_iff.mp (isLower_toLower hx)).2
    have hsmall : Ascii x.toLower :=
      Nat.lt_of_le_of_lt (UInt32.le_iff_toNat_le.mp (of_decide_eq_true hlower)) (by decide)
    have hlarge : Ascii x := Nat.lt_of_le_of_lt (UInt32.le_iff_toNat_le.mp hupper.2) (by decide)
    rw [hsmall.utf8Size_eq, hlarge.utf8Size_eq]

theorem bytes_lower (t : List Char) : bytes (lower t) = bytes t := by
  induction t with
  | nil => rfl
  | cons x t ih =>
    show bytes (x.toLower :: lower t) = bytes (x :: t)
    rw [bytes_cons, bytes_cons, utf8Size_toLower, ih]

/-- Small letters have as many bytes as capital ones, so an offset in the text in small letters is
one of the text. -/
theorem skipRaw_eq (h : s.Holds s.text.length c) (tag : String) :
    skipRaw s tag (s.offset c.pos) = pure (s.offset (Markup.skipRaw tag c).pos) := by
  rw [skipRaw, cutFrom_rest h, pure_bind, Markup.skipRaw]
  dsimp only
  cases indexOf? ('<' :: '/' :: tag.toList) (lower c.rest) with
  | some k =>
    have htake : (lower c.rest).take k = lower (c.rest.take k) := List.map_take.symm
    dsimp only
    rw [htake, bytes_lower, Source.offset_drop h.inside]
  | none =>
    dsimp only
    rw [h.bytes_eq]

theorem agrees_startTag (h : s.Holds s.text.length c) (hopen : c.rest.head? = some '<') :
    Agrees s c (startTag s (s.offset c.pos)) (Markup.startTag s c) := by
  have hbracket := Cursor.reads_head hopen
  have h₁ := h.reaches hbracket.reaches
  rw [startTag, ← Source.offset_drop_one h.inside (by decide) hopen, cutFrom_rest h₁, pure_bind,
    Markup.startTag]
  dsimp only
  cases hname : tagName? (c.drop 1).rest with
  | none => exact agrees_stopAt h₁ _ _
  | some name =>
    have hread := Cursor.reads_of_prefix (prefix_of_tagName? hname)
    have h₂ := h₁.reaches hread.reaches
    have hreach := hbracket.reaches.trans hread.reaches
    have hbytes : ((c.drop 1).drop name.length).rest.length < bytes s.text + 1 := by
      have hstop := h₂.stop
      have hle := length_le_bytes s.text
      rw [Cursor.stop] at hstop
      omega
    have hloop := agrees_attributes h₂ hbytes (Nat.lt_succ_of_le hreach.length_le)
    dsimp only
    rw [← Source.offset_reads h₁.inside hread]
    refine (hloop.bind_of_map ?_).after hreach
    rintro ⟨type, bindings, after⟩ - hafter
    dsimp only
    rw [place_eq, pure_bind, ← Source.location_eq_ofRange]
    show Agrees s after (if s.isRaw (s.tag name) type = true then _ else _)
      (.ok (_, if s.isRaw (s.tag name) type = true then _ else _))
    split
    · rw [skipRaw_eq (h₂.reaches hafter), pure_bind]
      exact .read rfl (reaches_skipRaw _ after)
    · exact .read rfl (.refl after)

end Offset

end ViewLint.Markup
