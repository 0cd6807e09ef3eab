import ViewLint.Proofs.Markup.Comments
import ViewLint.Proofs.Markup.Offset.Directive
import ViewLint.Proofs.Markup.Offset.Tag

/-!
# A view by offsets

The text of a view, read construct by construct from an offset on, as long as there are bytes ahead.
Each construct takes a byte and ends between characters, so the reading never goes wrong and comes
to an end; and if it stops with a diagnostic, the place of the diagnostic is in the view.

## Main definitions

* `Markup.Offset.step`, `Markup.Offset.tokenize` — one construct, and the tokens of a view.
* `Markup.Offset.Reached` — the offsets that are reached while a view is read.

## Main results

* `Markup.Offset.agrees_step`, `Markup.Offset.agrees_scan` — one construct, and all of them.
* `scanner_advances_between_characters` — the offsets that are reached.
-/

namespace ViewLint

namespace Markup.Offset

open Text

/-! ### Comments -/

/-- The token that the body of a comment makes, if any.  `whole` is the place of the comment, and
its body without the blanks around it stands between two offsets. -/
def comment (s : Source) (whole : Location) (body : List Char) (lead stop : Nat) :
    Checked (Option Token) := do
  if closesVirtual body then
    if (body.drop 3).all isBlank then
      return some (.element
        { tag := virtualTag, type := .stop, location := whole, bindings := [], isVirtual := true })
    else return none
  let word := body.takeWhile (!isBlank ·)
  let pos := lead + bytes word
  let location ← place s lead stop
  let name := String.ofList word
  if name = "ko" then return some (← (virtualElement s stop whole).run' pos)
  else if name = "ko-import" then
    return some (.directive (← (importDirective s stop location).run' pos))
  else if name = "ko-viewmodel" then
    return some (.directive (.viewmodel location (← (typeReference s stop).run' pos)))
  else if name = "ko-context" then
    return some (.directive (.context location (← (typeReference s stop).run' pos)))
  else if name = "ko-lint-disable" then
    return some (.directive (.lint location (lintKeys (← cut s pos stop)) false))
  else if name = "ko-lint-enable" then
    return some (.directive (.lint location (lintKeys (← cut s pos stop)) true))
  else return none

/-- A comment, at its opening: its token, if it makes one. -/
def commentStep (s : Source) (pos : Nat) : Checked (Option Token × Nat) := do
  let ahead ← cutFrom s (pos + 4)
  match indexOf? "-->".toList ahead with
  | none => stopAt s (bytes s.text) (.literal "-->") .comment
  | some n =>
    let last := pos + 4 + bytes (ahead.take n)
    let content ← cut s (pos + 4) last
    let lead := pos + 4 + (bytes content - bytes (trimStart content))
    let body := trimEnd (trimStart content)
    let whole ← place s pos (last + 3)
    let token ← comment s whole body lead (lead + bytes body)
    return (token, last + 3)

/-! ### Constructs -/

/-- Passes over a construct that `terminator` ends. -/
def skipPast (s : Source) (terminator : String) (construct : Construct) (pos : Nat) :
    Checked (Option Token × Nat) := do
  let ahead ← cutFrom s pos
  match indexOf? terminator.toList ahead with
  | some n => return (none, pos + bytes (ahead.take n) + bytes terminator.toList)
  | none => stopAt s (bytes s.text) (.literal terminator) construct

/-- One construct of the text: the token it makes, if any.  Reading goes wrong if nothing is
ahead. -/
def step (s : Source) (pos : Nat) : Checked (Option Token × Nat) :=
  match byteAt? s pos with
  | none => wrong
  | some b => do
    let ahead ← cutFrom s pos
    if b ≠ '<'.toUInt8 then
      match indexOf? ['<'] ahead with
      | some n => return (none, pos + bytes (ahead.take n))
      | none => return (none, bytes s.text)
    else if "<!--".toList.isPrefixOf ahead then commentStep s pos
    else if "<![CDATA[".toList.isPrefixOf ahead then skipPast s "]]>" .cdata pos
    else if "<!".toList.isPrefixOf ahead then skipPast s ">" .declaration pos
    else if "<?".toList.isPrefixOf ahead then skipPast s "?>" .instruction pos
    else if "</".toList.isPrefixOf ahead then
      let (token, after) ← endTag s pos
      return (some token, after)
    else
      let behind ← cutFrom s (pos + 1)
      if behind.head?.any beginsTag then
        let (token, after) ← startTag s pos
        return (some token, after)
      else return (none, pos + 1)

/-- The tokens from an offset on, and the offset at which reading ends.  It goes wrong if there are
more than `fuel` constructs. -/
def scan (s : Source) : Nat → Nat → Checked (List Token × Nat)
  | 0, pos => if pos < bytes s.text then wrong else return ([], pos)
  | fuel + 1, pos =>
    if pos < bytes s.text then do
      let (token, after) ← step s pos
      let (tokens, last) ← scan s fuel after
      return (token.toList ++ tokens, last)
    else return ([], pos)

/-- The tokens of a view, when all of them have been read. -/
def tokenized (s : Source) (tokens : List Token) : Tokenized :=
  ⟨if s.dialect = .html then normalizeVoid tokens else tokens, s.dialect⟩

/-- The tokens of a view. -/
def tokenize (file : String) (text : List Char) (options : Options) : Checked Tokenized := do
  let s := source file text options
  let (tokens, _) ← scan s (bytes s.text) 0
  return tokenized s tokens

/-- The offsets at which constructs are read, from the beginning of a view on. -/
inductive Reached (s : Source) : Nat → Prop
  | start : Reached s 0
  | next {pos pos' : Nat} {token : Option Token} (h : Reached s pos) (hlt : pos < bytes s.text)
    (hstep : (step s pos).run = some (.ok (token, pos'))) : Reached s pos'

/-! ### Agreement -/

variable {s : Source} {n : Nat} {c c' : Cursor}

/-- A directive is read for its answer only, and reading goes on behind its comment. -/
theorem Agrees.run' {α β : Type} {f' : Reading α} {f : Markup.Reading α} {c₀ after : Cursor}
    (h : Agrees s c (f' (s.offset c.pos)) (f c)) (hafter : c₀.Reaches after) (k : α → β) :
    Agrees s c₀ ((f'.run' (s.offset c.pos) >>= fun a => pure (k a)) >>=
        fun x => pure (x, s.offset after.pos))
      ((f.run' c >>= fun a => pure (k a)) >>= fun x => pure (x, after)) := by
  show Agrees s c₀
    (((fun x : α × Nat => x.1) <$> f' (s.offset c.pos) >>= fun a => pure (k a)) >>= _)
    (((fun x : α × Cursor => x.1) <$> f c >>= fun a => pure (k a)) >>= _)
  generalize f' (s.offset c.pos) = x' at h
  generalize f c = x at h
  cases h with
  | read hpos h => exact .read rfl hafter
  | fault f => exact .fault f

theorem agrees_comment (h : s.Holds n c) {c₀ after : Cursor} (hafter : c₀.Reaches after)
    (whole : Location) :
    Agrees s c₀
      (comment s whole c.rest (s.offset c.pos) (s.offset n) >>= fun x =>
        pure (x, s.offset after.pos))
      (Markup.comment s whole c >>= fun x => pure (x, after)) := by
  have hread := Cursor.reads_of_prefix (List.takeWhile_prefix (l := c.rest) (!isBlank ·))
  have h₁ := h.reaches hread.reaches
  rw [comment, Markup.comment]
  split
  · split
    · exact .read rfl hafter
    · exact .read rfl hafter
  · dsimp only
    rw [place_eq, pure_bind, ← Source.location_eq_ofRange, h.stop,
      ← Source.offset_reads h.inside hread]
    generalize c.drop (c.rest.takeWhile (!isBlank ·)).length = c₁ at h₁
    generalize String.ofList (c.rest.takeWhile (!isBlank ·)) = word
    by_cases h₂ : word = "ko"
    · rw [if_pos h₂, h₂]
      exact (agrees_virtualElement h₁ whole).run' hafter some
    by_cases h₃ : word = "ko-import"
    · rw [if_neg h₂, if_pos h₃, h₃]
      exact (agrees_importDirective h₁ _).run' hafter fun x => some (Token.directive x)
    by_cases h₄ : word = "ko-viewmodel"
    · rw [if_neg h₂, if_neg h₃, if_pos h₄, h₄]
      exact (agrees_typeReference h₁).run' hafter fun x => some (Token.directive (.viewmodel _ x))
    by_cases h₅ : word = "ko-context"
    · rw [if_neg h₂, if_neg h₃, if_neg h₄, if_pos h₅, h₅]
      exact (agrees_typeReference h₁).run' hafter fun x => some (Token.directive (.context _ x))
    rw [cut_rest h₁, if_neg h₂, if_neg h₃, if_neg h₄, if_neg h₅]
    by_cases h₆ : word = "ko-lint-disable"
    · rw [if_pos h₆, h₆]
      exact .read rfl hafter
    by_cases h₇ : word = "ko-lint-enable"
    · rw [if_neg h₆, if_pos h₇, h₇]
      exact .read rfl hafter
    rw [if_neg h₆, if_neg h₇]
    split
    · exact absurd rfl h₂
    · exact absurd rfl h₃
    · exact absurd rfl h₄
    · exact absurd rfl h₅
    · exact absurd rfl h₆
    · exact absurd rfl h₇
    · exact .read rfl hafter

/-- The body of a comment stands between its opening and its end. -/
theorem agrees_commentStep (h : s.Holds s.text.length c) (hopen : "<!--".toList <+: c.rest) :
    Agrees s c (commentStep s (s.offset c.pos)) (Markup.commentStep s c) := by
  have hreach := c.reaches_drop 4
  have h₁ := h.reaches hreach
  have hcontent : s.offset (c.drop 4).pos = s.offset c.pos + 4 :=
    Source.offset_reads h.inside (Cursor.reads_of_prefix hopen)
  rw [commentStep, ← hcontent, cutFrom_rest h₁, pure_bind, Markup.commentStep]
  dsimp only
  cases hn : indexOf? "-->".toList (c.drop 4).rest with
  | none =>
    dsimp only
    rw [h.bytes_eq]
    exact agrees_stopAt (h.reaches c.reaches_toEnd) _ _
  | some k =>
    have hinside := (c.drop 4).reads_drop k
    have hafter : (c.drop 4).Reads _ ((c.drop 4).drop (k + 3)) := reads_of_indexOf? hn
    have hlast : s.offset ((c.drop 4).drop (k + 3)).pos = s.offset ((c.drop 4).drop k).pos + 3 := by
      rw [Source.offset_reads h₁.inside hafter, Source.offset_reads h₁.inside hinside, bytes_append]
      rfl
    dsimp only
    rw [← Source.offset_drop h₁.inside, cut_reads h₁.inside hinside, pure_bind, ← hlast, place_eq,
      pure_bind, ← Source.location_eq_ofRange]
    let inside : Cursor := ⟨(c.drop 4).pos, (c.drop 4).rest.take k⟩
    have hin : inside.In s.text := h₁.inside.shorten (List.take_prefix k _)
    have htrim : (inside.skipWhile isBlank).rest = trimStart inside.rest :=
      inside.rest_skipWhile isBlank
    have hlead : s.offset (inside.skipWhile isBlank).pos =
        s.offset (c.drop 4).pos + (bytes inside.rest - bytes (trimStart inside.rest)) :=
      Source.offset_trimStart hin
    let body : Cursor := ⟨(inside.skipWhile isBlank).pos, trimEnd (inside.skipWhile isBlank).rest⟩
    have hbody : s.Holds body.stop body :=
      ⟨(hin.reaches (inside.reaches_skipWhile isBlank)).shorten (prefix_trimEnd _), rfl⟩
    have hstop :
        s.offset body.stop = s.offset body.pos + bytes (trimEnd (trimStart inside.rest)) := by
      rw [hbody.offset_stop, ← htrim]
    show Agrees s c
      (comment s _ (trimEnd (trimStart inside.rest))
        (s.offset (c.drop 4).pos + (bytes inside.rest - bytes (trimStart inside.rest))) _ >>= _)
      (Markup.comment s _ body >>= _)
    rw [← hlead, ← hstop, ← htrim]
    exact agrees_comment hbody (hreach.trans hafter.reaches) _

/-! ### Constructs -/

theorem agrees_skipPast (h : s.Holds s.text.length c) (terminator : String)
    (construct : Construct) :
    Agrees s c (skipPast s terminator construct (s.offset c.pos))
      ((Markup.skipPast terminator construct c).map (none, ·)) := by
  rw [skipPast, cutFrom_rest h, pure_bind, Markup.skipPast]
  cases hn : indexOf? terminator.toList c.rest with
  | none =>
    dsimp only
    rw [h.bytes_eq]
    exact agrees_stopAt (h.reaches c.reaches_toEnd) _ _
  | some k =>
    have hread := reads_of_indexOf? hn
    rw [String.length_toList] at hread
    refine .read ?_ hread.reaches
    rw [Source.offset_reads h.inside hread, bytes_append, Nat.add_assoc]

/-- A character first occurs behind all those before it that are others. -/
theorem indexOf?_singleton (x : Char) (t : List Char) :
    indexOf? [x] t = if x ∈ t then some (t.takeWhile (· != x)).length else none := by
  induction t with
  | nil => rfl
  | cons y t ih =>
    by_cases hx : x = y
    · subst hx
      simp [indexOf?]
    · have hother : [x].isPrefixOf (y :: t) = false := isPrefixOf_cons_of_ne [] t hx
      have hskip : (y :: t).takeWhile (· != x) = y :: t.takeWhile (· != x) :=
        List.takeWhile_cons_of_pos (bne_iff_ne.mpr fun h => hx h.symm)
      have hmem : x ∈ y :: t ↔ x ∈ t := by simp [hx]
      rw [indexOf?, hother, if_neg Bool.false_ne_true, ih, hskip]
      simp only [hmem]
      split <;> rfl

theorem offset_skipWhile_ne (h : s.Holds s.text.length c) (x : Char) :
    (match indexOf? [x] c.rest with
      | some k => s.offset c.pos + bytes (c.rest.take k)
      | none => bytes s.text) = s.offset (c.skipWhile (· != x)).pos := by
  have hread := c.reads_skipWhile (· != x)
  rw [indexOf?_singleton, Source.offset_reads h.inside hread]
  by_cases hx : x ∈ c.rest
  · have htake := List.prefix_iff_eq_take.mp (List.takeWhile_prefix (l := c.rest) (· != x))
    rw [if_pos hx]
    dsimp only
    rw [← htake]
  · have hall : c.rest.takeWhile (· != x) = c.rest :=
      List.takeWhile_eq_self_iff.mpr fun y hy => bne_iff_ne.mpr (ne_of_mem_of_not_mem hy hx)
    rw [if_neg hx, hall, ← h.offset_stop, s.offset_length]

/-- One construct of the text. -/
theorem agrees_step (h : s.Holds s.text.length c) (hne : c.rest ≠ []) :
    Agrees s c (step s (s.offset c.pos)) (Markup.step s c) := by
  have hbytes : encode c.rest ≠ [] := by
    intro hnil
    have hlength := length_le_bytes c.rest
    rw [← length_encode, hnil] at hlength
    exact hne (List.length_eq_zero_iff.mp (Nat.le_zero.mp hlength))
  obtain ⟨b, bs, hcons⟩ := List.exists_cons_of_ne_nil hbytes
  have hbyte : byteAt? s (s.offset c.pos) = some b := by rw [byteAt?_eq h, hcons]; rfl
  have hopen := byteAt?_eq_some_iff (x := '<') h (by decide)
  rw [hbyte, Option.some_inj] at hopen
  rw [step, hbyte]
  dsimp only
  rw [cutFrom_rest h, pure_bind, Markup.step]
  simp only [ne_eq, hopen]
  split
  · have hskip := offset_skipWhile_ne h '<'
    have hreach := c.reaches_skipWhile (· != '<')
    cases hfound : indexOf? ['<'] c.rest with
    | some k =>
      rw [hfound] at hskip
      exact .read hskip hreach
    | none =>
      rw [hfound] at hskip
      exact .read hskip hreach
  · next hfirst =>
    have hfirst := not_not.mp hfirst
    unfold Cursor.startsWith
    split
    · next hcomment => exact agrees_commentStep h (List.isPrefixOf_iff_prefix.mp hcomment)
    split
    · exact agrees_skipPast h _ _
    split
    · exact agrees_skipPast h _ _
    split
    · exact agrees_skipPast h _ _
    split
    · next hend => exact (agrees_endTag h (List.isPrefixOf_iff_prefix.mp hend)).map some
    · have hnext := Source.offset_drop_one h.inside (by decide) hfirst
      have hbehind : (c.drop 1).rest.head? = c.rest[1]? := List.head?_drop
      rw [← hnext, cutFrom_rest (h.reaches (c.reaches_drop 1)), pure_bind, hbehind]
      split
      · exact (agrees_startTag h hfirst).map some
      · exact .read rfl (c.reaches_drop 1)

theorem scan_of_rest_eq_nil (fuel : Nat) (hrest : c.rest = []) : Markup.scan s fuel c = .ok [] := by
  cases fuel with
  | zero => rfl
  | succ fuel => rw [Markup.scan, if_pos (by rw [Cursor.atEnd, hrest]; rfl)]

/-- All constructs of the text, up to its end.  Each takes a character, so the bytes bound their
number. -/
theorem agrees_scan {fuel' fuel : Nat} (h : s.Holds s.text.length c)
    (hfuel' : c.rest.length ≤ fuel') (hfuel : c.rest.length ≤ fuel) :
    Agrees s c (scan s fuel' (s.offset c.pos))
      ((Markup.scan s fuel c).map fun tokens => (tokens, c.toEnd)) := by
  induction fuel' generalizing fuel c with
  | zero =>
    have hrest : c.rest = [] := List.length_eq_zero_iff.mp (Nat.le_zero.mp hfuel')
    rw [scan, if_neg (fun hlt => h.lt_iff.mp hlt hrest), scan_of_rest_eq_nil fuel hrest]
    exact .read (Source.offset_of_rest_eq_nil hrest) c.reaches_toEnd
  | succ fuel' ih =>
    by_cases hrest : c.rest = []
    · rw [scan, if_neg (fun hlt => h.lt_iff.mp hlt hrest), scan_of_rest_eq_nil fuel hrest]
      exact .read (Source.offset_of_rest_eq_nil hrest) c.reaches_toEnd
    · cases fuel with
      | zero => exact absurd (List.length_eq_zero_iff.mp (Nat.le_zero.mp hfuel)) hrest
      | succ fuel =>
        have hend : ¬c.atEnd = true := by rwa [Cursor.atEnd, List.isEmpty_iff]
        rw [scan, if_pos (h.lt_iff.mpr hrest), Markup.scan, if_neg hend, Except.map_bind]
        refine (agrees_step h hrest).bind ?_
        intro token c₁ hread hreach
        have hlt := pos_lt_of_step h.inside hrest hread
        have hstop := hreach.stop_eq
        have htoEnd : c₁.toEnd = c.toEnd := by rw [Cursor.toEnd, hstop]; rfl
        rw [Cursor.stop, Cursor.stop] at hstop
        have hlater : Agrees s c₁ (scan s fuel' (s.offset c₁.pos))
            ((Markup.scan s fuel c₁).map fun tokens => (tokens, c₁.toEnd)) :=
          ih (h.reaches hreach) (by omega) (by omega)
        have hall := hlater.map (token.toList ++ ·)
        rw [Except.map_map, htoEnd] at hall
        show Agrees s c₁ _
          (((Markup.scan s fuel c₁).map fun tokens => token.toList ++ tokens).map
            fun tokens => (tokens, c.toEnd))
        rw [Except.map_map]
        exact hall

theorem tokenize_eq (file : String) (text : List Char) (options : Options) :
    let s := source file text options
    Markup.tokenize file text options =
      ((Markup.scan s s.text.length ⟨0, s.text⟩).mapError s.diagnostic).map (tokenized s) := by
  dsimp only [Markup.tokenize]
  cases Markup.scan (source file text options) (source file text options).text.length
    ⟨0, (source file text options).text⟩ <;> rfl

/-- The constructs of a view make the tokens that reading by cursors gives, or the diagnostic of a
fault. -/
theorem exists_scan_eq (file : String) (text : List Char) (options : Options) :
    let s := source file text options
    ∃ r, (scan s (bytes s.text) 0).run = some r ∧
      Markup.tokenize file text options = r.map (fun x => tokenized s x.1) ∧
      ∀ d, r = .error d → ∃ f, d = s.diagnostic f := by
  intro s
  have hagrees : Agrees s ⟨0, s.text⟩ (scan s (bytes s.text) 0) _ :=
    agrees_scan s.holds_start (length_le_bytes _) (Nat.le_refl s.text.length)
  rw [tokenize_eq]
  cases hscan : Markup.scan s s.text.length ⟨0, s.text⟩ with
  | error f =>
    rw [hscan] at hagrees
    refine ⟨.error (s.diagnostic f), by rw [hagrees.of_error]; rfl, rfl, ?_⟩
    intro d hd
    exact ⟨f, (Except.error.inj hd).symm⟩
  | ok tokens =>
    rw [hscan] at hagrees
    obtain ⟨heq, -⟩ := hagrees.of_ok
    refine ⟨.ok _, by rw [heq]; rfl, rfl, ?_⟩
    intro d hd
    cases hd

/-! ### The offsets that are reached -/

/-- The offsets that are reached are those of characters. -/
theorem Reached.exists_holds {pos : Nat} (h : Reached s pos) :
    ∃ c, s.Holds s.text.length c ∧ s.offset c.pos = pos := by
  induction h with
  | start => exact ⟨⟨0, s.text⟩, s.holds_start, rfl⟩
  | next hreached hlt hstep ih =>
    obtain ⟨c, hc, rfl⟩ := ih
    obtain ⟨c₁, -, rfl, hreach⟩ := (agrees_step hc (hc.lt_iff.mp hlt)).exists_of_run hstep
    exact ⟨c₁, hc.reaches hreach, rfl⟩

/-- What has been read ends at an offset that is reached: at the end of the view, or at a construct
that is malformed. -/
def EndsReached (s : Source) : Option (Except Diagnostic (List Token × Nat)) → Prop
  | none => True
  | some (.ok (_, last)) => Reached s last ∧ bytes s.text ≤ last
  | some (.error d) =>
    ∃ pos, Reached s pos ∧ pos < bytes s.text ∧ (step s pos).run = some (.error d)

theorem Reached.endsReached {pos : Nat} (h : Reached s pos) (fuel : Nat) :
    EndsReached s (scan s fuel pos).run := by
  induction fuel generalizing pos with
  | zero =>
    rw [scan]
    split
    · trivial
    · next hend => exact ⟨h, Nat.le_of_not_lt hend⟩
  | succ fuel ih =>
    rw [scan]
    split
    · next hlt =>
      rcases hstep : step s pos with _ | d | ⟨token, after⟩
      · trivial
      · exact ⟨pos, h, hlt, hstep⟩
      · have hlater := ih (h.next hlt hstep)
        show EndsReached s
          (scan s fuel after >>= fun x => pure (token.toList ++ x.1, x.2) : Checked _).run
        rcases hrest : scan s fuel after with _ | d | ⟨later, last⟩
        · trivial
        · rw [hrest] at hlater
          exact hlater
        · rw [hrest] at hlater
          exact hlater
    · next hend => exact ⟨h, Nat.le_of_not_lt hend⟩

end Markup.Offset

open Text Markup Markup.Offset

/-- **The scanner always advances, and never splits a character.**  Take a view in a text, and read
it by byte offsets.  No cut is out of range or inside of a character, no bracket is closed when none
is open, and no loop goes on for ever: the reading gives what reading by characters gives.  All
offsets at which a construct is read, also those of a view that is rejected in the end, are between
characters of the view, and each construct ends behind the offset at which it begins.  So does each
turn of the loop over the attributes of a start tag that is not the last one, from every offset
between characters.  A view that is accepted is read to its end.  A view that is rejected is
rejected at a construct, with one diagnostic `KO0014`, the place of which is in the view, between
characters, and does not end before it begins. -/
theorem scanner_advances_between_characters (file : String) (text : List Char) (options : Options) :
    let s := source file text options
    (Offset.tokenize file text options).run = some (Markup.tokenize file text options) ∧
    (∀ pos, Reached s pos →
      CharBoundary s.text pos ∧ pos ≤ bytes s.text ∧
      (pos < bytes s.text → ∃ r, (Offset.step s pos).run = some r ∧
        ∀ token pos', r = .ok (token, pos') → pos < pos')) ∧
    (∀ pos, CharBoundary s.text pos →
      ∃ r, (Offset.attributeStep s pos).run = some r ∧
        ∀ found pos', r = .ok (found, pos') → CharBoundary s.text pos' ∧ pos' ≤ bytes s.text ∧
          ∀ binding, found = .inr binding → pos < pos') ∧
    (∀ tokenized, Markup.tokenize file text options = .ok tokenized → Reached s (bytes s.text)) ∧
    ∀ d, Markup.tokenize file text options = .error d →
      (∃ pos, Reached s pos ∧ pos < bytes s.text ∧ (Offset.step s pos).run = some (.error d)) ∧
      d.code = "KO0014" ∧
      ∃ l, d.location = some l ∧ CharBoundary s.text l.start ∧ CharBoundary s.text l.stop ∧
        l.start ≤ l.stop ∧ l.stop ≤ bytes s.text := by
  intro s
  obtain ⟨r, hscan, hread, hfault⟩ := exists_scan_eq file text options
  have hends : EndsReached s (some r) := hscan ▸ Reached.start.endsReached _
  have hrun :
      (Offset.tokenize file text options).run = some (Markup.tokenize file text options) := by
    have hscan : Offset.scan s (bytes s.text) 0 = ExceptT.mk (some r) := hscan
    show (Offset.scan s (bytes s.text) 0 >>= fun x => pure (tokenized s x.1) : Checked _).run = _
    rw [hscan, hread]
    cases r <;> rfl
  refine ⟨hrun, ?_, ?_, ?_, ?_⟩
  · intro pos hpos
    obtain ⟨c, hc, rfl⟩ := hpos.exists_holds
    refine ⟨s.charBoundary_offset c.pos, s.offset_le c.pos, ?_⟩
    intro hlt
    have hrest := hc.lt_iff.mp hlt
    obtain ⟨r, hr⟩ := (agrees_step hc hrest).exists_run
    refine ⟨r, hr, ?_⟩
    rintro token pos' rfl
    obtain ⟨c', hread, rfl, hreach⟩ := (agrees_step hc hrest).exists_of_run hr
    exact Source.offset_lt (hc.inside.reaches hreach) (pos_lt_of_step hc.inside hrest hread)
  · intro pos hpos
    obtain ⟨c, hc, rfl⟩ := Source.exists_holds_of_charBoundary hpos
    obtain ⟨r, hr⟩ := (agrees_attributeStep hc).exists_run
    refine ⟨r, hr, ?_⟩
    rintro found pos' rfl
    obtain ⟨c', hread, rfl, hreach⟩ := (agrees_attributeStep hc).exists_of_run hr
    refine ⟨s.charBoundary_offset c'.pos, s.offset_le c'.pos, ?_⟩
    rintro binding rfl
    exact Source.offset_lt (hc.inside.reaches hreach) (pos_lt_of_attributeStep hc.inside hread)
  · intro tokenized hok
    cases r with
    | error d =>
      rw [hread] at hok
      cases hok
    | ok x =>
      obtain ⟨hlast, hle⟩ := hends
      obtain ⟨c, -, hc⟩ := hlast.exists_holds
      have hlast_le : x.2 ≤ bytes s.text := hc ▸ s.offset_le c.pos
      rwa [Nat.le_antisymm hlast_le hle] at hlast
  · intro d herror
    cases r with
    | error d' =>
      rw [hread] at herror
      cases herror
      obtain ⟨f, rfl⟩ := hfault d rfl
      refine ⟨hends, rfl, s.location f.place (f.place + f.found.width), rfl, ?_⟩
      rw [Source.location_eq_ofRange]
      exact ⟨s.charBoundary_offset _, s.charBoundary_offset _,
        bytes_take_mono s.text (Nat.le_add_right _ _), s.offset_le _⟩
    | ok x =>
      rw [hread] at herror
      cases herror

/-- A view with an end tag that has no name. -/
def accentedEndTag : String := "\u00e9<p></\u00e9>"

theorem scanner_advances_between_characters_accentedEndTag :
    ∃ d, Markup.tokenize "view.html" accentedEndTag.toList ⟨["data-bind"], false⟩ = .error d ∧
      d.location.map (fun l => (l.start, l.stop)) = some (7, 9) ∧ d.code = "KO0014" ∧
      (Offset.tokenize "view.html" accentedEndTag.toList ⟨["data-bind"], false⟩).run =
        some (.error d) := by
  have hview : (match Markup.tokenize "view.html" accentedEndTag.toList ⟨["data-bind"], false⟩ with
      | .error d => d.location.map fun l => (l.start, l.stop)
      | .ok _ => none) = some (7, 9) := by
    decide +kernel
  obtain ⟨hrun, -, -, -, hrejected⟩ := scanner_advances_between_characters "view.html"
    accentedEndTag.toList ⟨["data-bind"], false⟩
  cases htokenize : Markup.tokenize "view.html" accentedEndTag.toList ⟨["data-bind"], false⟩ with
  | ok tokenized =>
    rw [htokenize] at hview
    cases hview
  | error d =>
    rw [htokenize] at hview hrun
    exact ⟨d, rfl, hview, (hrejected d htokenize).2.1, hrun⟩

end ViewLint
