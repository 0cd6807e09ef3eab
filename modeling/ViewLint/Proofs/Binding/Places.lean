import ViewLint.Binding.Payload
import ViewLint.Proofs.Markup.Tiling

/-!
# Places of bindings in a payload

A binding has two places: that of the name of its key, which is the handler, and that of its value,
which is the expression.  Both are stretches of the payload, cut out of the text that is read by
leaving out what stands around the payload.  So they are stretches of the view, if the payload is
one, whatever parser has read it.  If the parser finds the keys of a literal one behind the other,
the handlers stand there in the order of the bindings.

## Main definitions

* `Script.Key.nameStart`, `Script.Key.nameStop` — the name of a key, without quotes.
* `Script.Key.Sits`, `Script.Property.Sits` — a key stands between two places, and so does that of a
  member.
* `ScriptParser.InOrder` — a parser finds the members of a payload one behind the other.
* `ParsedBinding.Within` — the handler and the expression stand between two places of a text.
* `ParsedBinding.Begins` — the handler begins between two places of a text.

## Main results

* `exists_of_memberBinding`, `exists_of_parsePayload` — the places of a binding are those of a key
  and of a value.
* `within_of_parsePayload` — the bindings of a payload stand in it.
* `row_of_parsePayload` — their handlers begin one behind the other.
-/

namespace ViewLint

open Text Script

/-! ### Stretches of a payload -/

section

variable (p : Payload)

theorem start_le_stop_payloadLocation (start stop : Nat) :
    (payloadLocation p start stop).start ≤ (payloadLocation p start stop).stop := by
  have hprefix : p.text.toList.take (unwrapPlace p.text.toList start) <+:
      p.text.toList.take (max (unwrapPlace p.text.toList start) (unwrapPlace p.text.toList stop)) :=
    List.take_prefix_take_left (Nat.le_max_left _ _)
  exact Nat.add_le_add_left (bytes_mono hprefix) p.location.start

/-- The place of a stretch has the bytes of the stretch. -/
theorem size_payloadLocation (start stop : Nat) :
    (payloadLocation p start stop).size = (payloadText p start stop).utf8ByteSize := by
  have hle := Nat.le_max_left (unwrapPlace p.text.toList start) (unwrapPlace p.text.toList stop)
  have hbytes := congrArg bytes (take_append_stretch p.text.toList hle)
  rw [bytes_append] at hbytes
  unfold payloadLocation payloadText unwrapSpan Location.size Location.relative
  dsimp only
  rw [utf8ByteSize_ofList]
  omega

theorem unwrapPlace_le (u : List Char) (place : Nat) : unwrapPlace u place ≤ u.length :=
  Nat.min_le_right _ _

/-- What is read of a payload stands in the text that the payload stands in. -/
theorem stands_payload {t : List Char} {p : Payload} {i j : Nat} (hp : p.Sits t i j)
    (start stop : Nat) :
    ∃ n ≤ j, Stands t (payloadText p start stop) (payloadLocation p start stop)
      (i + unwrapPlace p.text.toList start) n := by
  have hle := Nat.max_le.mpr ⟨unwrapPlace_le p.text.toList start, unwrapPlace_le p.text.toList stop⟩
  have hlength := Stands.length_eq hp
  have hij := Stands.le hp
  exact ⟨_, by omega, hp.stretch (Nat.le_max_left _ _) hle⟩

end

/-! ### Keys and members -/

/-- The first character of the name of a key, behind its quote if it has one. -/
def Script.Key.nameStart (key : Key) : Nat :=
  match key.label with
  | .quote _ => key.start + 1
  | _ => key.start

/-- The end of the name of a key, before its quote if it has one. -/
def Script.Key.nameStop (key : Key) : Nat :=
  match key.label with
  | .quote _ => key.stop - 1
  | _ => key.stop

/-- The key of a member that has one. -/
def Script.Property.key? : Property → Option Key
  | .spread _ => none
  | .entry key _ _ _ => some key
  | .shorthand key _ => some key
  | .method key _ _ => some key

/-- The least number of characters of a key: one for a name, and two for the quotes of a string. -/
def Script.Key.width (key : Key) : Nat :=
  match key.computed, key.label with
  | false, .name _ => 1
  | false, .quote _ => 2
  | _, _ => 0

/-- A key stands between two places. -/
def Script.Key.Sits (key : Key) (i j : Nat) : Prop :=
  i ≤ key.start ∧ key.start + key.width ≤ key.stop ∧ key.stop ≤ j

/-- A member stands between two places, and so does its key. -/
def Script.Property.Sits (x : Property) (i j : Nat) : Prop :=
  i ≤ j ∧ ∀ key, x.key? = some key → key.Sits i j

/-- The members of the literal that a payload makes stand one behind the other in the payload, which
stands behind two brackets. -/
def ScriptParser.InOrder [ScriptParser] : Prop :=
  ∀ (t : List Char) (e : Expr) (members : List Property),
    ScriptParser.expression (payloadStart ++ t ++ payloadStop) = .ok e →
      objectMembers? e = some members → Row Property.Sits (t.length + 2) 2 members

variable {p : Payload} {b : ParsedBinding}

/-- A handler stands where the name of its key does. -/
theorem location_of_keyHandler {key : Key} {handler : Ident} (h : keyHandler p key = .ok handler) :
    key.computed = false ∧ key.label ≠ .other ∧
      handler.location = payloadLocation p key.nameStart key.nameStop := by
  unfold keyHandler at h
  split at h
  · cases h
  · next hcomputed =>
    refine ⟨Bool.eq_false_iff.mpr hcomputed, ?_⟩
    unfold Key.nameStart Key.nameStop
    cases hlabel : key.label with
    | name w =>
      rw [hlabel] at h
      cases h
      exact ⟨Label.noConfusion, rfl⟩
    | quote w =>
      rw [hlabel] at h
      cases h
      exact ⟨Label.noConfusion, rfl⟩
    | other =>
      rw [hlabel] at h
      cases h

theorem exists_of_bindingOf {key : Key} {value : Expr} {start stop : Nat}
    (h : bindingOf p key value start stop = .ok b) :
    (key.computed = false ∧ key.label ≠ .other ∧
      b.handler.location = payloadLocation p key.nameStart key.nameStop) ∧
    b.expression = ⟨payloadText p start stop, payloadLocation p start stop⟩ := by
  obtain ⟨handler, hhandler, h⟩ := Except.bind_eq_ok.mp h
  cases h
  exact ⟨location_of_keyHandler hhandler, rfl⟩

/-- The places of a binding are those of the name of a key, and of a value. -/
theorem exists_of_memberBinding {member : Property} (h : memberBinding p member = .ok b) :
    ∃ key start stop, member.key? = some key ∧
      (key.computed = false ∧ key.label ≠ .other ∧
        b.handler.location = payloadLocation p key.nameStart key.nameStop) ∧
      b.expression = ⟨payloadText p start stop, payloadLocation p start stop⟩ := by
  cases member with
  | spread e => cases h
  | entry key value start stop => exact ⟨key, start, stop, rfl, exists_of_bindingOf h⟩
  | shorthand key initial => exact ⟨key, key.start, key.stop, rfl, exists_of_bindingOf h⟩
  | method key start stop => exact ⟨key, start, stop, rfl, exists_of_bindingOf h⟩

/-- The bindings of a payload are those of the members of a literal. -/
theorem exists_of_parsePayload [ScriptParser] {file : String} {found : List ParsedBinding}
    (h : parsePayload file p = .ok found) :
    ∃ e members, ScriptParser.expression (payloadStart ++ p.text.toList ++ payloadStop) = .ok e ∧
      objectMembers? e = some members ∧ members.mapM (memberBinding p) = .ok found := by
  have hread : payloadBindings p = .ok found := by
    unfold parsePayload at h
    cases hbindings : payloadBindings p with
    | error e =>
      rw [hbindings] at h
      cases h
    | ok bs =>
      rw [hbindings] at h
      cases h
      rfl
  unfold payloadBindings at hread
  split at hread
  · cases hread
  · next e he =>
    split at hread
    · cases hread
    · next members hmembers => exact ⟨e, members, he, hmembers, hread⟩

/-! ### Bindings in a text -/

section

variable {t : List Char} {i j : Nat} {file : String} {found : List ParsedBinding}

/-- The handler and the expression of a binding stand between two places of a text. -/
structure ParsedBinding.Within (t : List Char) (b : ParsedBinding) (i j : Nat) : Prop where
  handler : ∃ s k n, i ≤ k ∧ n ≤ j ∧ Stands t s b.handler.location k n
  expression : ∃ k n, i ≤ k ∧ n ≤ j ∧ Stands t b.expression.text b.expression.location k n

/-- The handler of a binding begins between two places of a text. -/
def ParsedBinding.Begins (t : List Char) (b : ParsedBinding) (i j : Nat) : Prop :=
  ∃ s k n, i ≤ k ∧ k < j ∧ Stands t s b.handler.location k n

theorem ParsedBinding.Within.widen {i' j' : Nat} (h : b.Within t i' j') (hi : i ≤ i')
    (hj : j' ≤ j) : b.Within t i j := by
  obtain ⟨s, k, n, hk, hn, hhandler⟩ := h.handler
  obtain ⟨k', n', hk', hn', hexpression⟩ := h.expression
  exact ⟨⟨s, k, n, by omega, by omega, hhandler⟩, k', n', by omega, by omega, hexpression⟩

/-- The bindings of a payload stand where the payload does. -/
theorem within_of_parsePayload [ScriptParser] (hp : p.Sits t i j)
    (h : parsePayload file p = .ok found) (hb : b ∈ found) : b.Within t i j := by
  obtain ⟨e, members, -, -, hmembers⟩ := exists_of_parsePayload h
  obtain ⟨member, -, hmember⟩ := Except.exists_of_mem_mapM hmembers hb
  obtain ⟨key, start, stop, -, ⟨-, -, hhandler⟩, hexpression⟩ := exists_of_memberBinding hmember
  refine ⟨?_, ?_⟩
  · obtain ⟨n, hn, hstands⟩ := stands_payload hp key.nameStart key.nameStop
    rw [hhandler]
    exact ⟨_, _, n, Nat.le_add_right _ _, hn, hstands⟩
  · obtain ⟨n, hn, hstands⟩ := stands_payload hp start stop
    rw [hexpression]
    exact ⟨_, n, Nat.le_add_right _ _, hn, hstands⟩

/-- The name of a key that may name a handler begins before the key ends, even if it is empty. -/
theorem Script.Key.Sits.nameStart_lt {key : Key} (h : key.Sits i j)
    (hcomputed : key.computed = false) (hlabel : key.label ≠ .other) :
    i ≤ key.nameStart ∧ key.nameStart < j := by
  obtain ⟨hstart, hwidth, hstop⟩ := h
  unfold Key.width at hwidth
  rw [hcomputed] at hwidth
  unfold Key.nameStart
  cases hname : key.label with
  | name w =>
    simp only [hname] at hwidth ⊢
    omega
  | quote w =>
    simp only [hname] at hwidth ⊢
    omega
  | other => exact absurd hname hlabel

/-- What is made of the members of a row, one thing of each, at places in the same order. -/
theorem Row.mapM {ε α β : Type} {P : α → Nat → Nat → Prop} {Q : β → Nat → Nat → Prop}
    {f : α → Except ε β} {g : Nat → Nat} {first last : Nat} {xs : List α} {ys : List β}
    (h : Row P last first xs) (hys : xs.mapM f = .ok ys) (hg : ∀ i j, i ≤ j → g i ≤ g j)
    (hf : ∀ x y i j, P x i j → f x = .ok y → Q y (g i) (g j)) : Row Q (g last) (g first) ys := by
  induction xs generalizing first ys with
  | nil =>
    cases hys
    exact hg _ _ h
  | cons x xs ih =>
    obtain ⟨i, j, hi, hij, hx, hrest⟩ := h
    rw [List.mapM_cons] at hys
    obtain ⟨y, hy, hys⟩ := Except.bind_eq_ok.mp hys
    obtain ⟨zs, hzs, hys⟩ := Except.bind_eq_ok.mp hys
    cases hys
    exact ⟨g i, g j, hg _ _ hi, hg _ _ hij, hf x y i j hx hy, ih hrest hzs⟩

/-- The handlers of a payload begin one behind the other, in the order of the bindings. -/
theorem row_of_parsePayload [ScriptParser] (horder : ScriptParser.InOrder) (hp : p.Sits t i j)
    (h : parsePayload file p = .ok found) :
    Row (ParsedBinding.Begins t) j i found := by
  obtain ⟨e, members, hread, hobject, hmembers⟩ := exists_of_parsePayload h
  have hlength := Stands.length_eq hp
  have hij := Stands.le hp
  have hrow := (horder _ _ _ hread hobject).within (Nat.le_refl 2)
  -- a place of the text that is read is one of the view
  refine (hrow.mapM (g := fun place => i + (place - 2)) hmembers ?_ ?_).widen (by omega) (by omega)
  · intro k n hkn
    omega
  · rintro member b k n ⟨hsits, hk, hn⟩ hmember
    obtain ⟨key, start, stop, hkey, ⟨hcomputed, hlabel, hhandler⟩, -⟩ :=
      exists_of_memberBinding hmember
    obtain ⟨hstart, hlt⟩ := (hsits.2 key hkey).nameStart_lt hcomputed hlabel
    obtain ⟨stop, -, hstands⟩ := stands_payload hp key.nameStart key.nameStop
    rw [← hhandler] at hstands
    have hplace : unwrapPlace p.text.toList key.nameStart = key.nameStart - 2 := by
      refine Nat.min_eq_left ?_
      change key.nameStart - 2 ≤ _
      omega
    rw [hplace] at hstands
    exact ⟨_, _, stop, by omega, by omega, hstands⟩

end

end ViewLint
