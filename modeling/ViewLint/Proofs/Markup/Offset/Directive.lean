import ViewLint.Proofs.Markup.Directives
import ViewLint.Proofs.Markup.Offset.Basic

/-!
# Directives by offsets

The grammar of directives, read from an offset of the view up to the offset at which the directive
ends.  Each step of it agrees with the step that reads at a cursor.  Names take a byte at least, so
the loops over the symbols of a list and over the names of a path end before the bytes of the
directive do; and brackets are counted from the first one on, which is an opening one, so there is
always one to be closed.

## Main results

* `Markup.Offset.agrees_importDirective`, `Markup.Offset.agrees_typeReference`,
  `Markup.Offset.agrees_virtualElement` — the directives that can be malformed.
-/

namespace ViewLint.Markup.Offset

open Text

/-- A step that reads at an offset: it answers and moves on, or stops with a diagnostic, or goes
wrong. -/
abbrev Reading (α : Type) : Type := StateT Nat Checked α

/-- The text of the directive that is ahead. -/
def rest (s : Source) (stop : Nat) : Reading (List Char) := do
  cut s (← get) stop

/-- Moves on by a number of bytes. -/
def move (n : Nat) : Reading Unit := modify (· + n)

/-- Stops where the directive is read. -/
def stopDirective {α : Type} (s : Source) (stop : Nat) (expected : Expected) : Reading α := do
  let pos ← get
  if stop ≤ pos then
    let covered ← place s stop stop
    throw (report s covered expected .endOfDirective .directive)
  else stopAt s pos expected .directive

/-- Skips the blanks ahead. -/
def skipBlanks (s : Source) (stop : Nat) : Reading Unit := do
  let ahead ← rest s stop
  move (bytes ahead - bytes (trimStart ahead))

/-- Reads a mark of punctuation if it is ahead. -/
def eat (s : Source) (stop : Nat) (mark : Char) : Reading Bool := do
  skipBlanks s stop
  let ahead ← rest s stop
  if ahead.head? = some mark then
    move mark.utf8Size
    return true
  else return false

/-- Reads a mark of punctuation, which must be ahead. -/
def expect (s : Source) (stop : Nat) (mark : Char) : Reading Unit := do
  if !(← eat s stop mark) then stopDirective s stop (.literal (.ofList [mark]))

/-- Reads a word if it is ahead, as a whole name. -/
def eatWord (s : Source) (stop : Nat) (word : String) : Reading Bool := do
  skipBlanks s stop
  let ahead ← rest s stop
  if leadingName ahead = word.toList then
    move (bytes (leadingName ahead))
    return true
  else return false

/-- Reads a word, which must be ahead. -/
def expectWord (s : Source) (stop : Nat) (word : String) : Reading Unit := do
  if !(← eatWord s stop word) then stopDirective s stop (.literal word)

/-- Reads a name. -/
def identifier (s : Source) (stop : Nat) : Reading Ident := do
  skipBlanks s stop
  let ahead ← rest s stop
  match leadingName ahead with
  | [] => stopDirective s stop .identifier
  | name =>
    let start ← get
    move (bytes name)
    return ⟨.ofList name, ← place s start (← get)⟩

/-- Reads a text in quotes; its place is that of the text between them. -/
def quotedString (s : Source) (stop : Nat) : Reading Ident := do
  skipBlanks s stop
  let ahead ← rest s stop
  match ahead with
  | [] => stopDirective s stop .string
  | quote :: _ =>
    if quote = '\x22' ∨ quote = '\x27' then
      let start := (← get) + 1
      let inside ← cut s start stop
      match indexOf? [quote] inside with
      | some n =>
        let last := start + bytes (inside.take n)
        set (last + 1)
        return ⟨.ofList (← cut s start last), ← place s start last⟩
      | none =>
        set stop
        stopDirective s stop (.closingQuote quote)
    else stopDirective s stop .string

/-- The end of the directive must be ahead. -/
def finished (s : Source) (stop : Nat) : Reading Unit := do
  skipBlanks s stop
  if (← get) < stop then stopDirective s stop .endOfDirective

/-! ### Imports -/

/-- One symbol of a list, with the name it is given if there is one. -/
def importSymbol (s : Source) (stop : Nat) : Reading ImportSymbol := do
  let name ← identifier s stop
  if ← eatWord s stop "as" then
    let given ← identifier s stop
    return ⟨name, given⟩
  else return ⟨name, name⟩

/-- The symbols of a list from behind its opening brace on.  Reading goes wrong if there are more
than `fuel` of them. -/
def importSymbols (s : Source) (stop : Nat) : Nat → Reading (List ImportSymbol)
  | 0 => fun _ => wrong
  | fuel + 1 => do
    if ← eat s stop '\x7d' then return []
    let symbol ← importSymbol s stop
    if ← eat s stop ',' then return symbol :: (← importSymbols s stop fuel)
    expect s stop '\x7d'
    return [symbol]

/-- A list of symbols in braces. -/
def importList (s : Source) (stop : Nat) : Reading (List ImportSymbol) := do
  expect s stop '\x7b'
  importSymbols s stop (stop - (← get) + 1)

/-- What a view takes from a module. -/
def importClause (s : Source) (stop : Nat) : Reading (List ImportSymbol) := do
  skipBlanks s stop
  let ahead ← rest s stop
  if ahead.head? = some '*' then
    let start ← get
    let star : Ident := ⟨"*", ← place s start (start + 1)⟩
    move 1
    expectWord s stop "as"
    let given ← identifier s stop
    return [⟨star, given⟩]
  else if ahead.head? = some '\x7b' then importList s stop
  else
    let given ← identifier s stop
    let symbol : ImportSymbol := ⟨⟨"default", given.location⟩, given⟩
    if ← eat s stop ',' then return symbol :: (← importList s stop) else return [symbol]

/-- An import from behind its first word on. -/
def importDirective (s : Source) (stop : Nat) (location : Location) : Reading Directive := do
  let symbols ← importClause s stop
  expectWord s stop "from"
  let path ← quotedString s stop
  finished s stop
  return .imports ⟨location, symbols, path⟩

/-! ### Types -/

/-- The further names of a path.  Reading goes wrong if there are more than `fuel` of them. -/
def pathRest (s : Source) (stop : Nat) : Nat → Reading Unit
  | 0 => fun _ => wrong
  | fuel + 1 => do
    let ahead ← rest s stop
    if ahead.head? = some '.' then
      move 1
      let _ ← identifier s stop
      pathRest s stop fuel

/-- The number of bytes up to and with the bracket that closes the last open one, when `depth`
brackets are open behind `size` bytes.  It goes wrong to close a bracket when none is open. -/
def closeAngle : Nat → Nat → List Char → Checked (Option Nat)
  | _, _, [] => pure none
  | depth, size, c :: t =>
    if c = '<' then closeAngle (depth + 1) (size + c.utf8Size) t
    else if c = '>' then
      if depth = 0 then wrong
      else if depth = 1 then pure (some (size + 1))
      else closeAngle (depth - 1) (size + c.utf8Size) t
    else closeAngle depth (size + c.utf8Size) t

/-- The arguments of a type in angle brackets, if there are any. -/
def typeArguments (s : Source) (stop : Nat) : Reading Unit := do
  let ahead ← rest s stop
  if ahead.head? = some '<' then
    match ← closeAngle 0 0 ahead with
    | some n => move n
    | none =>
      move (bytes ahead)
      stopDirective s stop (.literal ">")

/-- A type, or the type of a value. -/
def typeReference (s : Source) (stop : Nat) : Reading TypeReference := do
  let isType := !(← eatWord s stop "typeof")
  skipBlanks s stop
  let start ← get
  let _ ← identifier s stop
  pathRest s stop (stop - (← get) + 1)
  if isType then typeArguments s stop
  let last ← get
  finished s stop
  return ⟨⟨.ofList (← cut s start last), ← place s start last⟩, isType⟩

/-- The opening of a virtual element, whose comment covers the given place. -/
def virtualElement (s : Source) (stop : Nat) (whole : Location) : Reading Token := do
  skipBlanks s stop
  let pos ← get
  if stop ≤ pos then stopDirective s stop .binding
  let covered ← place s pos stop
  let ahead ← rest s stop
  return .element
    { tag := virtualTag, type := .start, location := whole,
      bindings := [⟨covered, .ofList ahead⟩], isVirtual := true }

/-! ### Steps -/

variable {s : Source} {n : Nat} {c c' : Cursor}

/-- Two steps, one after the other. -/
theorem Agrees.seq {α β : Type} {f' : Reading α} {g' : α → Reading β} {f : Markup.Reading α}
    {g : α → Markup.Reading β} (h : Agrees s c (f' (s.offset c.pos)) (f c))
    (hg : ∀ a c', f c = .ok (a, c') → c.Reaches c' →
      Agrees s c' (g' a (s.offset c'.pos)) (g a c')) :
    Agrees s c ((f' >>= g') (s.offset c.pos)) ((f >>= g) c) :=
  Agrees.bind h hg

theorem get_bind {α : Type} (k : Nat → Reading α) (pos : Nat) :
    ((get : Reading Nat) >>= k) pos = k pos pos := rfl

theorem lift_bind {α β : Type} (a : α) (k : α → Reading β) (pos : Nat) :
    ((liftM (pure a : Checked α) : Reading α) >>= k) pos = k a pos := rfl

theorem move_bind {α : Type} (n : Nat) (k : Unit → Reading α) (pos : Nat) :
    (move n >>= k) pos = k () (pos + n) := rfl

theorem set_bind {α : Type} (k : PUnit → Markup.Reading α) (c c' : Cursor) :
    ((set c' : Markup.Reading PUnit) >>= k) c = k () c' := rfl

theorem throw_apply {α : Type} (d : Diagnostic) (pos : Nat) :
    (throw d : Reading α) pos = (throw d : Checked (α × Nat)) := rfl

theorem lift_apply {α : Type} (x : Checked α) (pos : Nat) :
    (liftM x : Reading α) pos = x >>= fun a => pure (a, pos) := rfl

theorem rest_bind {α : Type} (h : s.Holds n c) (k : List Char → Reading α) :
    (rest s (s.offset n) >>= k) (s.offset c.pos) = k c.rest (s.offset c.pos) := by
  show ((cut s (s.offset c.pos) (s.offset n) >>= fun ahead => pure (ahead, s.offset c.pos)) >>=
    fun x => k x.1 x.2) = _
  rw [cut_rest h]
  rfl

theorem skipBlanks_bind {α : Type} (h : s.Holds n c) (k : Unit → Reading α) :
    (skipBlanks s (s.offset n) >>= k) (s.offset c.pos) =
      k () (s.offset (c.skipWhile isBlank).pos) := by
  rw [skipBlanks, bind_assoc, rest_bind h, Source.offset_trimStart h.inside]
  rfl

/-- Stopping at the end of the directive, or at a character of it. -/
theorem agrees_stopDirective {α : Type} (h : s.Holds n c) {c₀ : Cursor} (expected : Expected) :
    Agrees s c₀ ((stopDirective s (s.offset n) expected : Reading α) (s.offset c.pos))
      (Markup.stopDirective expected c) := by
  rw [stopDirective, get_bind]
  cases hrest : c.rest with
  | nil =>
    have hpos : c.pos = n := by
      rw [← h.stop, Cursor.stop, hrest]
      rfl
    let fault : Fault := ⟨n, expected, .endOfDirective, .directive⟩
    have hreport : report s (s.location n n) expected .endOfDirective .directive =
        s.diagnostic fault := rfl
    have hfault : (Markup.stopDirective expected : Markup.Reading α) c = .error fault := by
      show Except.error (⟨c.pos, expected, found c .endOfDirective, .directive⟩ : Fault) = _
      rw [found, hrest, hpos]
      rfl
    rw [if_pos (h.offset_stop_le_iff.mpr hrest), place_eq, ← Source.location_eq_ofRange, lift_bind,
      hreport, throw_apply, hfault]
    exact .fault fault
  | cons x rest =>
    -- the character is the same if one looks ahead to the end of the view
    obtain ⟨after, hwide⟩ := h.widen
    have hfound : found c .endOfDirective = found ⟨c.pos, c.rest ++ after⟩ .endOfInput := by
      rw [found, found, hrest]
      rfl
    have hlt : ¬s.offset n ≤ s.offset c.pos := by
      rw [h.offset_stop_le_iff, hrest]
      exact List.cons_ne_nil x rest
    rw [if_neg hlt, lift_apply]
    show Agrees s c₀ ((stopAt s (s.offset c.pos) expected .directive : Checked α) >>= _)
      (.error ⟨c.pos, expected, found c .endOfDirective, .directive⟩)
    have hstop : (stopAt s (s.offset c.pos) expected .directive : Checked α) =
        throw (s.diagnostic ⟨c.pos, expected, found c .endOfDirective, .directive⟩) := by
      rw [hfound]
      exact stopAt_eq hwide expected .directive
    rw [hstop]
    exact .fault _

/-! ### Words and marks -/

theorem agrees_eat (h : s.Holds n c) (mark : Char) :
    Agrees s c (eat s (s.offset n) mark (s.offset c.pos)) (Markup.eat mark c) := by
  have hskip := c.reaches_skipWhile isBlank
  have h₁ := h.reaches hskip
  rw [eat, skipBlanks_bind h, rest_bind h₁, Markup.eat, Markup.skipBlanks_bind, Markup.get_bind]
  split
  · next hhead =>
    have hread := Cursor.reads_head hhead
    refine .read ?_ (hskip.trans hread.reaches)
    rw [Source.offset_reads h₁.inside hread, bytes_cons, bytes_nil, Nat.add_zero]
  · exact .read rfl hskip

theorem agrees_expect (h : s.Holds n c) (mark : Char) :
    Agrees s c (expect s (s.offset n) mark (s.offset c.pos)) (Markup.expect mark c) := by
  refine (agrees_eat h mark).seq ?_
  intro b c' _ hreach
  cases b with
  | true => exact .read rfl (.refl c')
  | false => exact agrees_stopDirective (h.reaches hreach) _

theorem agrees_eatWord (h : s.Holds n c) (word : String) :
    Agrees s c (eatWord s (s.offset n) word (s.offset c.pos)) (Markup.eatWord word c) := by
  have hskip := c.reaches_skipWhile isBlank
  have h₁ := h.reaches hskip
  have hread := Cursor.reads_of_prefix (prefix_leadingName (c.skipWhile isBlank).rest)
  rw [eatWord, skipBlanks_bind h, rest_bind h₁, Markup.eatWord, Markup.skipBlanks_bind,
    Markup.get_bind]
  split
  · next hword =>
    rw [hword, String.length_toList] at hread
    refine .read ?_ (hskip.trans hread.reaches)
    rw [Source.offset_reads h₁.inside hread, hword]
  · exact .read rfl hskip

theorem agrees_expectWord (h : s.Holds n c) (word : String) :
    Agrees s c (expectWord s (s.offset n) word (s.offset c.pos)) (Markup.expectWord word c) := by
  refine (agrees_eatWord h word).seq ?_
  intro b c' _ hreach
  cases b with
  | true => exact .read rfl (.refl c')
  | false => exact agrees_stopDirective (h.reaches hreach) _

theorem agrees_finished (h : s.Holds n c) :
    Agrees s c (finished s (s.offset n) (s.offset c.pos)) (Markup.finished c) := by
  have hskip := c.reaches_skipWhile isBlank
  have h₁ := h.reaches hskip
  have hlt : s.offset (c.skipWhile isBlank).pos < s.offset n ↔
      (!(c.skipWhile isBlank).atEnd) = true := by
    rw [← Nat.not_le, h₁.offset_stop_le_iff]
    simp [Cursor.atEnd]
  rw [finished, skipBlanks_bind h, get_bind, Markup.finished, Markup.skipBlanks_bind,
    Markup.get_bind]
  simp only [hlt]
  split
  · exact (agrees_stopDirective h₁ _).after hskip
  · exact .read rfl hskip

/-! ### Names and paths -/

theorem agrees_identifier (h : s.Holds n c) :
    Agrees s c (identifier s (s.offset n) (s.offset c.pos)) (Markup.identifier s c) := by
  have hskip := c.reaches_skipWhile isBlank
  have h₁ := h.reaches hskip
  have hread := Cursor.reads_of_prefix (prefix_leadingName (c.skipWhile isBlank).rest)
  rw [identifier, skipBlanks_bind h, rest_bind h₁, Markup.identifier, Markup.skipBlanks_bind,
    Markup.get_bind]
  cases hname : leadingName (c.skipWhile isBlank).rest with
  | nil => exact agrees_stopDirective h₁ _
  | cons x name =>
    rw [hname] at hread
    have hmoved := Source.offset_reads h₁.inside hread
    show Agrees s c
      (((liftM (place s (s.offset (c.skipWhile isBlank).pos)
          (s.offset (c.skipWhile isBlank).pos + bytes (x :: name))) : Reading Location) >>=
        fun l => pure ⟨.ofList (x :: name), l⟩)
          (s.offset (c.skipWhile isBlank).pos + bytes (x :: name)))
      (.ok (s.ident (c.skipWhile isBlank).pos ((c.skipWhile isBlank).pos + (x :: name).length), _))
    rw [← hmoved, place_eq, lift_bind, ← hread.pos, Source.ident_reads h₁.inside hread]
    exact .read rfl (hskip.trans hread.reaches)

/-- A name takes a character. -/
theorem length_lt_of_identifier {i : Ident} (h : Markup.identifier s c = .ok (i, c')) :
    c'.rest.length < c.rest.length := by
  have hskip := (c.reaches_skipWhile isBlank).length_le
  have hread := Cursor.reads_of_prefix (prefix_leadingName (c.skipWhile isBlank).rest)
  rw [Markup.identifier, Markup.skipBlanks_bind, Markup.get_bind] at h
  cases hname : leadingName (c.skipWhile isBlank).rest with
  | nil =>
    rw [hname] at h
    exact absurd h (stopDirective_ne_ok _ _ _)
  | cons x name =>
    rw [hname] at h hread
    cases h
    have hlength := congrArg List.length hread.rest
    have hname : 0 < (x :: name).length := Nat.succ_pos _
    rw [List.length_append] at hlength
    omega

theorem agrees_quotedString (h : s.Holds n c) :
    Agrees s c (quotedString s (s.offset n) (s.offset c.pos)) (Markup.quotedString s c) := by
  have hskip := c.reaches_skipWhile isBlank
  have h₁ := h.reaches hskip
  rw [quotedString, skipBlanks_bind h, rest_bind h₁, Markup.quotedString, Markup.skipBlanks_bind,
    Markup.get_bind]
  generalize c.skipWhile isBlank = c₁ at h₁ hskip
  cases hrest : c₁.rest with
  | nil => exact (agrees_stopDirective h₁ _).after hskip
  | cons quote t =>
    dsimp only
    split
    · next hquote =>
      have hsize : Ascii quote := by
        rcases hquote with rfl | rfl <;> decide
      have hfirst : c₁.rest.head? = some quote := by rw [hrest]; rfl
      have hopen := Cursor.reads_head hfirst
      have h₂ := h₁.reaches hopen.reaches
      have hstart : s.offset c₁.pos + 1 = s.offset (c₁.drop 1).pos :=
        (Source.offset_drop_one h₁.inside hsize hfirst).symm
      have hinside : (c₁.drop 1).rest = t := by rw [Cursor.drop, hrest]; rfl
      rw [get_bind]
      simp only [hstart]
      rw [cut_rest h₂, lift_bind, hinside]
      cases hn : indexOf? [quote] t with
      | none =>
        have hend := c₁.reaches_toEnd
        have hlast : s.offset n = s.offset c₁.toEnd.pos := by rw [← h₁.stop]; rfl
        show Agrees s c (stopDirective s (s.offset n) (.closingQuote quote) (s.offset n))
          (Markup.stopDirective (.closingQuote quote) c₁.toEnd)
        nth_rewrite 2 [hlast]
        exact (agrees_stopDirective (h₁.reaches hend) _).after (hskip.trans hend)
      | some k =>
        obtain ⟨hread, hclose, hpos⟩ := Cursor.reads_quoted hrest hn
        have hlast := Source.offset_reads h₂.inside hread
        have h₃ := h₂.reaches hread.reaches
        have hafter := Source.offset_reads h₃.inside hclose
        rw [bytes_cons, hsize.utf8Size_eq, bytes_nil] at hafter
        show Agrees s c
          (((liftM (cut s (s.offset (c₁.drop 1).pos)
              (s.offset (c₁.drop 1).pos + bytes (t.take k))) : Reading (List Char)) >>=
            fun text => (liftM (place s (s.offset (c₁.drop 1).pos)
              (s.offset (c₁.drop 1).pos + bytes (t.take k))) : Reading Location) >>=
            fun l => pure ⟨.ofList text, l⟩)
              (s.offset (c₁.drop 1).pos + bytes (t.take k) + 1))
          (.ok (s.ident (c₁.pos + 1) (c₁.pos + 1 + k), c₁.drop (k + 2)))
        rw [← hlast, cut_reads h₂.inside hread, lift_bind, place_eq, lift_bind, ← hpos,
          show c₁.pos + 1 = (c₁.drop 1).pos from hopen.pos.symm, Source.ident_reads h₂.inside hread]
        refine .read hafter.symm ?_
        exact hskip.trans (hopen.reaches.trans (hread.reaches.trans hclose.reaches))
    · exact (agrees_stopDirective h₁ _).after hskip

/-! ### Imports -/

theorem agrees_importSymbol (h : s.Holds n c) :
    Agrees s c (importSymbol s (s.offset n) (s.offset c.pos)) (Markup.importSymbol s c) := by
  refine (agrees_identifier h).seq ?_
  intro name c₁ _ hreach₁
  have h₁ := h.reaches hreach₁
  refine (agrees_eatWord h₁ "as").seq ?_
  intro b c₂ _ hreach₂
  cases b with
  | true =>
    refine (agrees_identifier (h₁.reaches hreach₂)).seq ?_
    intro given c₃ _ _
    exact .read rfl (.refl c₃)
  | false => exact .read rfl (.refl c₂)

theorem length_lt_of_importSymbol {x : ImportSymbol} (hx : Markup.importSymbol s c = .ok (x, c')) :
    c'.rest.length < c.rest.length := by
  obtain ⟨name, c₁, hname, hx⟩ := reading_bind_eq_ok hx
  have hlt := length_lt_of_identifier hname
  obtain ⟨b, c₂, hword, hx⟩ := reading_bind_eq_ok hx
  have hle := (reaches_eatWord hword).length_le
  cases b with
  | true =>
    obtain ⟨given, c₃, hgiven, hx⟩ := reading_bind_eq_ok hx
    have hlt' := length_lt_of_identifier hgiven
    cases hx
    omega
  | false =>
    cases hx
    omega

/-- Every symbol takes a character, so the characters ahead bound their number, and so do the
bytes. -/
theorem agrees_importSymbols {fuel' fuel : Nat} (h : s.Holds n c) (hfuel' : c.rest.length < fuel')
    (hfuel : c.rest.length < fuel) :
    Agrees s c (importSymbols s (s.offset n) fuel' (s.offset c.pos))
      (Markup.importSymbols s fuel c) := by
  induction fuel' generalizing fuel c with
  | zero => exact absurd hfuel' (Nat.not_lt_zero _)
  | succ fuel' ih =>
    cases fuel with
    | zero => exact absurd hfuel (Nat.not_lt_zero _)
    | succ fuel =>
      refine (agrees_eat h '\x7d').seq ?_
      intro closed c₁ _ hreach₁
      have h₁ := h.reaches hreach₁
      cases closed with
      | true => exact .read rfl (.refl c₁)
      | false =>
        refine Agrees.seq (agrees_importSymbol h₁) ?_
        intro symbol c₂ hsymbol hreach₂
        have h₂ := h₁.reaches hreach₂
        refine Agrees.seq (agrees_eat h₂ ',') ?_
        intro more c₃ _ hreach₃
        have h₃ := h₂.reaches hreach₃
        cases more with
        | true =>
          have hlt := length_lt_of_importSymbol hsymbol
          have hle₁ := hreach₁.length_le
          have hle₃ := hreach₃.length_le
          refine Agrees.seq (ih h₃ (by omega) (by omega)) ?_
          intro symbols c₄ _ _
          exact .read rfl (.refl c₄)
        | false =>
          refine Agrees.seq (agrees_expect h₃ '\x7d') ?_
          intro _ c₄ _ _
          exact .read rfl (.refl c₄)

theorem agrees_importList (h : s.Holds n c) :
    Agrees s c (importList s (s.offset n) (s.offset c.pos)) (Markup.importList s c) := by
  refine (agrees_expect h '\x7b').seq ?_
  intro _ c₁ _ hreach
  have h₁ := h.reaches hreach
  have hfuel : c₁.rest.length < s.offset n - s.offset c₁.pos + 1 := by
    rw [h₁.offset_stop, Nat.add_sub_cancel_left]
    exact Nat.lt_succ_of_le (length_le_bytes c₁.rest)
  rw [get_bind, Markup.get_bind]
  exact agrees_importSymbols h₁ hfuel (Nat.lt_succ_self _)

/-- What is taken from a module: everything, a list, or the default with perhaps a list. -/
theorem agrees_importClause (h : s.Holds n c) :
    Agrees s c (importClause s (s.offset n) (s.offset c.pos)) (Markup.importClause s c) := by
  have hskip := c.reaches_skipWhile isBlank
  have h₁ := h.reaches hskip
  rw [importClause, skipBlanks_bind h, rest_bind h₁, Markup.importClause, Markup.skipBlanks_bind,
    Markup.get_bind]
  refine Agrees.after ?_ hskip
  generalize c.skipWhile isBlank = c₁ at h₁
  by_cases hhead : c₁.rest.head? = some '*'
  · have hstar := Cursor.reads_head hhead
    have h₂ := h₁.reaches hstar.reaches
    have hnext : s.offset c₁.pos + 1 = s.offset (c₁.drop 1).pos :=
      (Source.offset_drop_one h₁.inside (by decide) hhead).symm
    have hname : s.ident c₁.pos (c₁.pos + 1) =
        ⟨"*", .ofRange s.text (s.offset c₁.pos) (s.offset (c₁.drop 1).pos)⟩ := by
      rw [show c₁.pos + 1 = (c₁.drop 1).pos from hstar.pos.symm,
        Source.ident_reads h₁.inside hstar]
    rw [if_pos hhead, get_bind, place_eq, lift_bind, move_bind, hnext, ← hname, hhead]
    refine Agrees.after ?_ hstar.reaches
    show Agrees s (c₁.drop 1) _
      ((Markup.expectWord "as" >>= fun _ => Markup.identifier s >>= fun given =>
        pure [⟨s.ident c₁.pos (c₁.pos + 1), given⟩] : Markup.Reading (List ImportSymbol))
          (c₁.drop 1))
    refine Agrees.seq (agrees_expectWord h₂ "as") ?_
    intro _ c₃ _ hreach₃
    refine Agrees.seq (agrees_identifier (h₂.reaches hreach₃)) ?_
    intro given c₄ _ _
    exact .read rfl (.refl c₄)
  by_cases hbrace : c₁.rest.head? = some '\x7b'
  · rw [if_neg hhead, if_pos hbrace, hbrace]
    exact agrees_importList h₁
  rw [if_neg hhead, if_neg hbrace]
  generalize c₁.rest.head? = first at hhead hbrace
  split
  · exact absurd rfl hhead
  · exact absurd rfl hbrace
  · refine Agrees.seq (agrees_identifier h₁) ?_
    intro given c₂ _ hreach₂
    have h₂ := h₁.reaches hreach₂
    refine Agrees.seq (agrees_eat h₂ ',') ?_
    intro more c₃ _ hreach₃
    cases more with
    | true =>
      refine Agrees.seq (agrees_importList (h₂.reaches hreach₃)) ?_
      intro symbols c₄ _ _
      exact .read rfl (.refl c₄)
    | false => exact .read rfl (.refl c₃)

theorem agrees_importDirective (h : s.Holds n c) (location : Location) :
    Agrees s c (importDirective s (s.offset n) location (s.offset c.pos))
      (Markup.importDirective s location c) := by
  refine (agrees_importClause h).seq ?_
  intro symbols c₁ _ hreach₁
  have h₁ := h.reaches hreach₁
  refine (agrees_expectWord h₁ "from").seq ?_
  intro _ c₂ _ hreach₂
  have h₂ := h₁.reaches hreach₂
  refine (agrees_quotedString h₂).seq ?_
  intro path c₃ _ hreach₃
  refine (agrees_finished (h₂.reaches hreach₃)).seq ?_
  intro _ c₄ _ _
  exact .read rfl (.refl c₄)

/-! ### Types -/

/-- Every name of a path takes a character, too. -/
theorem agrees_pathRest {fuel' fuel : Nat} (h : s.Holds n c) (hfuel' : c.rest.length < fuel')
    (hfuel : c.rest.length < fuel) :
    Agrees s c (pathRest s (s.offset n) fuel' (s.offset c.pos)) (Markup.pathRest s fuel c) := by
  induction fuel' generalizing fuel c with
  | zero => exact absurd hfuel' (Nat.not_lt_zero _)
  | succ fuel' ih =>
    cases fuel with
    | zero => exact absurd hfuel (Nat.not_lt_zero _)
    | succ fuel =>
      rw [pathRest, rest_bind h, Markup.pathRest, Markup.get_bind]
      split
      · next hdot =>
        have hread := Cursor.reads_head hdot
        have h₁ := h.reaches hread.reaches
        have hle₁ := hread.reaches.length_le
        rw [move_bind, ← Source.offset_drop_one h.inside (by decide) hdot, set_bind]
        refine Agrees.after ?_ hread.reaches
        refine Agrees.seq (agrees_identifier h₁) ?_
        intro name c₂ hname hreach₂
        have hlt := length_lt_of_identifier hname
        exact ih (h₁.reaches hreach₂) (by omega) (by omega)
      · exact .read rfl (.refl c)

/-- As long as a bracket is open there is one to be closed. -/
theorem closeAngle_eq {depth : Nat} (hdepth : 0 < depth) (size : Nat) (t : List Char) :
    closeAngle depth size t =
      pure ((closeAngle? depth t).map fun k => size + bytes (t.take k)) := by
  induction t generalizing depth size with
  | nil => rfl
  | cons x t ih =>
    have hmap : ∀ o : Option Nat,
        o.map (fun k => size + x.utf8Size + bytes (t.take k)) =
          (o.map (· + 1)).map fun k => size + bytes ((x :: t).take k) := by
      intro o
      cases o with
      | none => rfl
      | some k => simp [Nat.add_assoc]
    rw [closeAngle, closeAngle?]
    split
    · rw [ih (Nat.succ_pos depth), hmap]
    · split
      · next hx =>
        rw [if_neg (Nat.ne_of_gt hdepth)]
        by_cases hlast : depth = 1
        · rw [if_pos hlast, if_pos (Nat.le_of_eq hlast), hx]
          rfl
        · rw [if_neg hlast, if_neg (by omega), ih (by omega), hmap]
      · rw [ih hdepth, hmap]

theorem agrees_typeArguments (h : s.Holds n c) :
    Agrees s c (typeArguments s (s.offset n) (s.offset c.pos)) (Markup.typeArguments c) := by
  rw [typeArguments, rest_bind h, Markup.typeArguments, Markup.get_bind]
  split
  · next hopen =>
    obtain ⟨t, ht⟩ := List.head?_eq_some_iff.mp hopen
    -- the first bracket is an opening one
    have hclose : closeAngle 0 0 c.rest =
        pure ((closeAngle? 0 c.rest).map fun k => bytes (c.rest.take k)) := by
      rw [ht, closeAngle, closeAngle?, if_pos rfl, if_pos rfl, closeAngle_eq (Nat.succ_pos 0)]
      cases closeAngle? (0 + 1) t with
      | none => rfl
      | some k => simp
    rw [hclose, lift_bind]
    cases closeAngle? 0 c.rest with
    | some k =>
      refine .read ?_ (c.reaches_drop k)
      rw [Source.offset_drop h.inside]
    | none =>
      have hend := c.reaches_toEnd
      have hlast : s.offset c.pos + bytes c.rest = s.offset c.toEnd.pos := by
        rw [← h.offset_stop, ← h.stop]
        rfl
      show Agrees s c (stopDirective s (s.offset n) (.literal ">") (s.offset c.pos + bytes c.rest))
        (Markup.stopDirective (.literal ">") c.toEnd)
      rw [hlast]
      exact agrees_stopDirective (h.reaches hend) _
  · exact .read rfl (.refl c)

/-- The end of a type, the name of which begins at a cursor and ends at another one. -/
theorem agrees_typeEnd (h : s.Holds n c) (hreach : c.Reaches c') (isType : Bool) :
    Agrees s c'
      ((do
        let last ← get
        finished s (s.offset n)
        return ⟨⟨.ofList (← cut s (s.offset c.pos) last), ← place s (s.offset c.pos) last⟩,
          isType⟩ : Reading TypeReference) (s.offset c'.pos))
      ((do
        let last := (← get).pos
        Markup.finished
        return ⟨s.ident c.pos last, isType⟩ : Markup.Reading TypeReference) c') := by
  obtain ⟨r, hread⟩ := id hreach
  rw [get_bind, Markup.get_bind]
  refine Agrees.seq (agrees_finished (h.reaches hreach)) ?_
  intro _ c'' _ _
  rw [cut_reads h.inside hread, lift_bind, place_eq, lift_bind, Source.ident_reads h.inside hread]
  exact .read rfl (.refl c'')

theorem agrees_typeReference (h : s.Holds n c) :
    Agrees s c (typeReference s (s.offset n) (s.offset c.pos)) (Markup.typeReference s c) := by
  refine (agrees_eatWord h "typeof").seq ?_
  intro b c₁ _ hreach₁
  have h₁ := h.reaches hreach₁
  have hskip := c₁.reaches_skipWhile isBlank
  dsimp only
  rw [skipBlanks_bind h₁, Markup.skipBlanks_bind, get_bind, Markup.get_bind]
  refine Agrees.after ?_ hskip
  have h₂ := h₁.reaches hskip
  generalize c₁.skipWhile isBlank = c₂ at h₂
  refine Agrees.seq (agrees_identifier h₂) ?_
  intro _ c₃ _ hreach₃
  have h₃ := h₂.reaches hreach₃
  have hfuel : c₃.rest.length < s.offset n - s.offset c₃.pos + 1 := by
    rw [h₃.offset_stop, Nat.add_sub_cancel_left]
    exact Nat.lt_succ_of_le (length_le_bytes c₃.rest)
  rw [get_bind, Markup.get_bind]
  refine Agrees.seq (agrees_pathRest h₃ hfuel (Nat.lt_succ_self _)) ?_
  intro _ c₄ _ hreach₄
  have h₄ := h₃.reaches hreach₄
  have hreach := hreach₃.trans hreach₄
  -- the name ends where its arguments do, if it has any
  cases b with
  | true => exact agrees_typeEnd h₂ hreach false
  | false =>
    refine Agrees.seq (agrees_typeArguments h₄) ?_
    intro _ c₅ _ hreach₅
    exact agrees_typeEnd h₂ (hreach.trans hreach₅) true

theorem agrees_virtualElement (h : s.Holds n c) (whole : Location) :
    Agrees s c (virtualElement s (s.offset n) whole (s.offset c.pos))
      (Markup.virtualElement s whole c) := by
  have hskip := c.reaches_skipWhile isBlank
  have h₁ := h.reaches hskip
  rw [virtualElement, skipBlanks_bind h, get_bind, Markup.virtualElement, Markup.skipBlanks_bind,
    Markup.get_bind]
  refine Agrees.after ?_ hskip
  generalize c.skipWhile isBlank = c₁ at h₁
  cases hrest : c₁.rest with
  | nil =>
    have hend : c₁.atEnd = true := by rw [Cursor.atEnd, hrest]; rfl
    rw [if_pos (h₁.offset_stop_le_iff.mpr hrest), if_pos hend]
    refine Agrees.seq (agrees_stopDirective h₁ .binding) ?_
    intro _ c₂ hok _
    exact absurd hok (stopDirective_ne_ok _ _ _)
  | cons x rest =>
    have hend : ¬c₁.atEnd = true := by rw [Cursor.atEnd, hrest]; exact Bool.false_ne_true
    have hlt : ¬s.offset n ≤ s.offset c₁.pos := by
      rw [h₁.offset_stop_le_iff, hrest]
      exact List.cons_ne_nil x rest
    rw [if_neg hlt, if_neg hend]
    dsimp only
    rw [place_eq, lift_bind, rest_bind h₁, ← Source.location_eq_ofRange, h₁.stop, hrest]
    exact .read rfl (.refl c₁)

end ViewLint.Markup.Offset
