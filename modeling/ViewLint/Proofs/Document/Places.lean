import ViewLint.Proofs.Binding.Places
import ViewLint.Proofs.Document.Provenance
import ViewLint.Proofs.Script.Members

/-!
# Places of the bindings of a document

The tokens of a view stand one behind the other, and so do the payloads of a tag and the handlers in
a payload, if the parser of scripts finds them so.  The machine takes the tokens in this order and
writes the bindings of each at the end of its log.  So the handlers in the log begin one behind the
other, and every binding stands inside the element of its node.

## Main definitions

* `Machine.Located` — a binding stands inside the element of its node.
* `Machine.Laid` — the bindings in the log stand one behind the other, each inside its element.

## Main results

* `Machine.Laid.step`, `Machine.laid_foldl` — one token and all tokens keep the log so.
* `bindings_point_at_text` — bindings point at their own text.
-/

namespace ViewLint

open Text

namespace Machine

variable {file : String} {t : List Char} {m : Machine} {i j place : Nat}

/-- A binding stands inside the element of its node. -/
def Located (t : List Char) (m : Machine) (x : Placed) : Prop :=
  ∃ n parent content, x.node = n + 1 ∧ m.nodes[n]? = some (parent, .binding content) ∧
    ∃ s i j, Stands t s content.location i j ∧ x.parsed.Within t i j

theorem Located.grow {x : Placed} (h : m.Located t x) {m' : Machine}
    (hnodes : m.nodes <+: m'.nodes) : m'.Located t x := by
  obtain ⟨n, parent, content, hnode, hn, hwithin⟩ := h
  exact ⟨n, parent, content, hnode, getElem?_of_prefix hnodes hn, hwithin⟩

variable [ScriptParser]

/-- The handlers in the log begin one behind the other, and before a given place, if the parser
finds them so.  Every binding stands inside its element. -/
structure Laid (t : List Char) (m : Machine) (place : Nat) : Prop where
  row : ScriptParser.InOrder → Row (ParsedBinding.Begins t) place 0 (m.bindings.map (·.parsed))
  located : ∀ x ∈ m.bindings, m.Located t x

theorem laid_initial : initial.Laid t 0 :=
  ⟨fun _ => Nat.le_refl 0, fun _ hx => (List.not_mem_nil hx).elim⟩

/-- Only what is added to the log has to be looked at. -/
theorem Laid.grow (h : m.Laid t i) {m' : Machine} {xs : List Placed} (hnodes : m.nodes <+: m'.nodes)
    (hbindings : m'.bindings = m.bindings ++ xs)
    (hrow : ScriptParser.InOrder → Row (ParsedBinding.Begins t) j i (xs.map (·.parsed)))
    (hlocated : ∀ x ∈ xs, m'.Located t x) : m'.Laid t j := by
  refine ⟨fun horder => ?_, ?_⟩
  · rw [hbindings, List.map_append]
    exact (h.row horder).append (hrow horder)
  · intro x hx
    rw [hbindings] at hx
    rcases List.mem_append.mp hx with hx | hx
    · exact (h.located x hx).grow hnodes
    · exact hlocated x hx

theorem Laid.keep (h : m.Laid t i) {m' : Machine} (hnodes : m.nodes <+: m'.nodes)
    (hbindings : m'.bindings = m.bindings) (hij : i ≤ j) : m'.Laid t j :=
  h.grow hnodes (hbindings.trans (List.append_nil _).symm) (fun _ => hij)
    fun _ hx => (List.not_mem_nil hx).elim

/-! ### One token -/

/-- The handlers of an element begin one behind the other. -/
theorem row_readable (horder : ScriptParser.InOrder) {ps : List Payload}
    (h : Row (Payload.Sits t) j i ps) :
    Row (ParsedBinding.Begins t) j i (readable file ps) := by
  refine h.flatMap ?_
  intro p i j hij hp
  cases hparse : parsePayload file p with
  | error diagnostic => exact hij
  | ok found => exact row_of_parsePayload horder hp hparse

/-- The bindings of an element stand in it. -/
theorem within_readable {e : Element} (he : e.Sits t i j) {p : ParsedBinding}
    (hp : p ∈ readable file e.bindings) : p.Within t i j := by
  obtain ⟨payload, found, hpayload, hparse, hp⟩ := exists_of_mem_readable hp
  obtain ⟨k, n, hk, -, hn, hsits⟩ := he.bindings.bounds hpayload
  exact (within_of_parsePayload hsits hparse hp).widen hk hn

theorem Laid.directive (h : m.Laid t i) (hij : i ≤ j) (content : Directive) :
    (m.directive file content).Laid t j := by
  cases content with
  | imports _ => exact h.keep (List.prefix_rfl) rfl hij
  | lint _ _ _ => exact h.keep (List.prefix_rfl) rfl hij
  | context location type => exact h.keep (List.prefix_append _ _) rfl hij
  | viewmodel location type =>
    rw [Machine.directive]
    split
    · exact h.keep (List.prefix_rfl) rfl hij
    · exact h.keep (List.prefix_append _ _) rfl hij

/-- The node of an element has the place of the element. -/
theorem Laid.element (registry : Handlers) (h : m.Laid t i) {e : Element} (he : e.Sits t i j) :
    (m.element file registry e).2.Laid t j := by
  rw [Machine.element]
  split
  · exact h.keep (List.prefix_rfl) rfl he.bindings.le
  · refine h.grow (List.prefix_append _ _) rfl (fun horder => ?_) ?_
    · rw [List.map_map]
      exact (List.map_id _).symm ▸ row_readable horder he.bindings
    · intro x hx
      obtain ⟨p, hp, rfl⟩ := List.mem_map.mp hx
      obtain ⟨body, hplace⟩ := he.place
      exact ⟨m.nodes.length, m.top.active, m.elementNode registry e (readable file e.bindings), rfl,
        List.getElem?_concat_length, _, i, j, hplace, within_readable he hp⟩

theorem Laid.step (registry : Handlers) (h : m.Laid t place) {x : Token} (hx : x.Sits t i j)
    (hi : place ≤ i) : (m.step file registry x).Laid t j := by
  have hj : place ≤ j := Nat.le_trans hi (Nat.le_of_lt hx.1)
  cases x with
  | directive content => exact h.directive hj content
  | element e =>
    have helement : (m.element file registry e).2.Laid t j :=
      (h.keep (List.prefix_rfl) rfl hi).element registry hx.2
    rw [Machine.step]
    split
    · exact helement.keep (List.prefix_rfl) rfl (Nat.le_refl j)
    · exact helement
    · split
      · exact h.keep (List.prefix_rfl) rfl hj
      · exact h.keep (List.prefix_rfl) rfl hj

theorem laid_foldl (registry : Handlers) {last : Nat} {ts : List Token}
    (hts : Row (Token.Sits t) last place ts) (h : m.Laid t place) :
    (ts.foldl (Machine.step file registry) m).Laid t last := by
  induction ts generalizing m place with
  | nil => exact h.keep (List.prefix_rfl) rfl hts
  | cons x ts ih =>
    obtain ⟨i, j, hi, -, hx, hrest⟩ := hts
    exact ih hrest (h.step registry hx hi)

end Machine

/-! ### The bindings of a document -/

/-- The expression of a binding stands in the text that the tokens were read from, which has no
mark. -/
theorem expression_stands_of_build [ScriptParser] {file text : String} {t : List Char}
    {options : Markup.Options} {tokenized : Markup.Tokenized} {handlers : Handlers} {d : Document}
    (ht : Markup.tokenize file t options = .ok tokenized)
    (hd : (build file text tokenized handlers).document = some d) {k : Nat} {b : Binding}
    (hb : d.bindings[k]? = some b) :
    ∃ i j, Stands (Markup.stripMark t) b.expression.text b.expression.location i j := by
  obtain ⟨e, payload, found, he, hpayload, hparse, hfound⟩ := stated_of_build hd hb
  obtain ⟨i, j, -, -, -, hsits⟩ := (Markup.row_of_tokenize ht).bounds he
  obtain ⟨k, n, -, -, -, hstands⟩ := hsits.2.bindings.bounds hpayload
  obtain ⟨k', n', -, -, hexpression⟩ := (within_of_parsePayload hstands hparse hfound).expression
  exact ⟨k', n', hexpression⟩

/-- The handler that stands before another one in a row begins before it. -/
theorem ParsedBinding.Begins.start_lt {t : List Char} {b b' : ParsedBinding} {i j k n : Nat}
    (h : b.Begins t i j) (h' : b'.Begins t k n) (hle : j ≤ k) :
    b.handler.location.start < b'.handler.location.start := by
  obtain ⟨s, first, stop, -, hfirst, hstands⟩ := h
  obtain ⟨s', first', stop', hfirst', -, hstands'⟩ := h'
  rw [hstands.start_eq, hstands'.start_eq]
  exact bytes_take_lt (by omega) (Nat.le_trans hstands'.le hstands'.le_length)

/-- **Bindings point at their own text.**  In a view without a byte order mark the expression of
every binding is the text at its place, and the lines and columns of its place and of that of the
handler are those that counting from the beginning of the view gives.  Both stand inside the element
of the node of the binding.  If the parser finds the members of a payload one behind the other, then
of two bindings the one with the smaller number has the handler that begins first. -/
theorem bindings_point_at_text [ScriptParser] {file text : String} {options : Markup.Options}
    {tokenized : Markup.Tokenized} {handlers : Handlers} {d : Document}
    (hmark : text.toList.head? ≠ some '\ufeff')
    (ht : Markup.tokenize file text.toList options = .ok tokenized)
    (hd : (build file text tokenized handlers).document = some d) :
    (∀ b ∈ d.bindings, ∃ node, d.bindingNode? b.node = some node ∧
      b.expression.location.Shows text.toList b.expression.text.toList ∧
      (∃ name, b.handler.location.Shows text.toList name) ∧
      b.expression.location.Inside node.location ∧ b.handler.location.Inside node.location) ∧
    (ScriptParser.InOrder → ∀ b ∈ d.bindings, ∀ b' ∈ d.bindings, b.id < b'.id →
      b.handler.location.start < b'.handler.location.start) := by
  have hrow := Markup.row_of_tokenize ht
  rw [Markup.stripMark_eq_self hmark] at hrow
  have hlaid : (Machine.run file handlers tokenized.tokens).Laid text.toList text.toList.length :=
    Machine.laid_foldl handlers hrow Machine.laid_initial
  refine ⟨?_, ?_⟩
  · intro b hb
    obtain ⟨k, hk, rfl⟩ := Array.getElem_of_mem hb
    obtain ⟨x, hx, -, hnode, hparsed⟩ := exists_placed hd (Array.getElem?_eq_getElem hk)
    obtain ⟨n, parent, content, hn, hget, s, i, j, hplace, hwithin⟩ :=
      hlaid.located x (List.mem_of_getElem? hx)
    have hcontent : d.bindingNode? d.bindings[k].node = some content := by
      rw [hnode, hn, Document.bindingNode?, document_eq_machine hd, Machine.getElem?_nodes_succ,
        hget]
      rfl
    rw [← hparsed] at hwithin
    obtain ⟨name, i₁, j₁, hi₁, hj₁, hhandler⟩ := hwithin.handler
    obtain ⟨i₂, j₂, hi₂, hj₂, hexpression⟩ := hwithin.expression
    exact ⟨content, hcontent, hexpression.shows, ⟨_, hhandler.shows⟩,
      hexpression.inside hplace hi₂ hj₂, hhandler.inside hplace hi₁ hj₁⟩
  · intro horder b hb b' hb' hlt
    obtain ⟨k, hk, rfl⟩ := Array.getElem_of_mem hb
    obtain ⟨k', hk', rfl⟩ := Array.getElem_of_mem hb'
    obtain ⟨x, hx, hid, -, hparsed⟩ := exists_placed hd (Array.getElem?_eq_getElem hk)
    obtain ⟨x', hx', hid', -, hparsed'⟩ := exists_placed hd (Array.getElem?_eq_getElem hk')
    rw [hid, hid'] at hlt
    -- the log has them in the order of their numbers
    obtain ⟨hlength, rfl⟩ := List.getElem?_eq_some_iff.mp hx
    obtain ⟨hlength', rfl⟩ := List.getElem?_eq_some_iff.mp hx'
    have hordered := List.pairwise_iff_getElem.mp (List.pairwise_map.mp (hlaid.row horder).pairwise)
    obtain ⟨i, j, i', j', hbegins, hbegins', hle⟩ := hordered k k' hlength hlength' hlt
    rw [← hparsed] at hbegins
    rw [← hparsed'] at hbegins'
    exact hbegins.start_lt hbegins' hle

/-- A view with an empty handler name, a payload of three lines, a virtual element, and a payload
without quotes. -/
def manyLinedView : String :=
  "<p data-bind=\"\n  '': \u00e9,\n  text: a + '\u00e9'\"><!-- ko if: b -->" ++
    "<br data-bind=\u00e9:1><!-- /ko --></p>"

theorem bindings_point_at_text_manyLinedView :
    ∃ tokenized d,
      Markup.tokenize "view.html" manyLinedView.toList ⟨["data-bind"], false⟩ = .ok tokenized ∧
      (build "view.html" manyLinedView tokenized ⟨.empty, .empty⟩).document = some d ∧
      d.bindings.toList.map (fun b => (b.id, b.handler.location.start, b.expression.text)) =
        [(0, 18, "\u00e9"), (1, 27, "a + '\u00e9'"), (2, 51, "b"), (3, 74, "1")] ∧
      (∀ b ∈ d.bindings,
        b.expression.location.Shows manyLinedView.toList b.expression.text.toList) ∧
      ∀ b ∈ d.bindings, ∀ b' ∈ d.bindings, b.id < b'.id →
        b.handler.location.start < b'.handler.location.start := by
  have hview :
      ((Markup.tokenize "view.html" manyLinedView.toList ⟨["data-bind"], false⟩).toOption.bind
        fun tokenized => (build "view.html" manyLinedView tokenized ⟨.empty, .empty⟩).document).map
          (fun d => d.bindings.toList.map fun b =>
            (b.id, b.handler.location.start, b.expression.text)) =
        some [(0, 18, "\u00e9"), (1, 27, "a + '\u00e9'"), (2, 51, "b"), (3, 74, "1")] := by
    decide +kernel
  obtain ⟨d, hfound, hbindings⟩ := Option.map_eq_some_iff.mp hview
  obtain ⟨tokenized, ht, hd⟩ := Option.bind_eq_some_iff.mp hfound
  have htokenize := Except.toOption_eq_some.mp ht
  obtain ⟨hplaces, hordered⟩ := bindings_point_at_text (by decide +kernel) htokenize hd
  refine ⟨tokenized, d, htokenize, hd, hbindings, ?_, hordered Script.inOrder_grammar⟩
  intro b hb
  obtain ⟨node, -, hshows, -⟩ := hplaces b hb
  exact hshows

end ViewLint
