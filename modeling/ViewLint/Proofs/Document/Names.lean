import ViewLint.Proofs.Document.Timeline
import ViewLint.View

/-!
# Names of a document

The names that a document has from its directives are those of its imports and of its types.  All of
them are written in the view, with as many bytes as their places say.  The machine logs every
directive that it reads, and makes a node with a type only for a directive in its log.

## Main definitions

* `Ident.Exact` — a name has as many bytes as its place.
* `Machine.Typed` — the types of the nodes are written in logged directives.
* `Document.NamesExact` — the names of a document have as many bytes as their places.

## Main results

* `Machine.Typed.step`, `Machine.typed_run` — one token and all tokens keep the log so.
* `exists_of_parseView` — the tokens that the document of a view is built from.
* `namesExact_of_build` — the names of a document.
-/

namespace ViewLint

open Markup

/-- A name has as many bytes as its place. -/
def Ident.Exact (i : Ident) : Prop := i.value.utf8ByteSize = i.location.size

namespace Machine

/-- The type of every node is written in a directive of the log. -/
def Typed (m : Machine) : Prop :=
  ∀ n ∈ m.nodes, ∀ type isRoot location, n.2 = .type ⟨some type, isRoot, location⟩ →
    ∃ x ∈ m.directives, type.name ∈ x.names

variable {m m' : Machine} {file : String}

theorem typed_initial : initial.Typed := fun _ hn => (List.not_mem_nil hn).elim

/-- Only nodes that are added have to be looked at. -/
theorem Typed.grow (h : m.Typed) {ns : List (NodeId × NodeKind)} (hnodes : m'.nodes = m.nodes ++ ns)
    (hdirectives : m.directives ⊆ m'.directives)
    (hns : ∀ n ∈ ns, ∀ type isRoot location, n.2 = .type ⟨some type, isRoot, location⟩ →
      ∃ x ∈ m'.directives, type.name ∈ x.names) : m'.Typed := by
  intro n hn type isRoot location hkind
  rw [hnodes] at hn
  rcases List.mem_append.mp hn with hn | hn
  · obtain ⟨x, hx, hname⟩ := h n hn type isRoot location hkind
    exact ⟨x, hdirectives hx, hname⟩
  · exact hns n hn type isRoot location hkind

theorem Typed.keep (h : m.Typed) (hnodes : m'.nodes = m.nodes)
    (hdirectives : m.directives ⊆ m'.directives) : m'.Typed := by
  refine h.grow (hnodes.trans (List.append_nil _).symm) hdirectives ?_
  intro n hn
  cases hn

theorem Typed.directive (h : m.Typed) (content : Directive) : (m.directive file content).Typed := by
  have hlog : m.directives ⊆ m.directives ++ [content] := List.subset_append_left _ _
  -- a node for a type that the directive names
  have hopen : ∀ (m' : Machine) (type : TypeReference) (isRoot : Bool) (location : Option Location),
      m'.nodes = m.nodes → m'.directives = m.directives ++ [content] → type.name ∈ content.names →
        (m'.openType ⟨some type, isRoot, location⟩).Typed := by
    intro m' type isRoot location hnodes hdirectives hname
    have hcontent : content ∈ (m'.openType ⟨some type, isRoot, location⟩).directives := by
      change content ∈ m'.directives
      rw [hdirectives]
      exact List.mem_append_right _ (List.mem_singleton_self _)
    have hgrown : (m'.openType ⟨some type, isRoot, location⟩).nodes =
        m.nodes ++ [(m'.top.active, .type ⟨some type, isRoot, location⟩)] := by
      rw [← hnodes]
      rfl
    refine h.grow hgrown ?_ ?_
    · change m.directives ⊆ m'.directives
      rw [hdirectives]
      exact hlog
    · intro n hn type' isRoot' location' hkind
      rw [List.mem_singleton.mp hn] at hkind
      cases hkind
      exact ⟨content, hcontent, hname⟩
  cases content with
  | imports i => exact h.keep rfl hlog
  | lint location keys enable => exact h.keep rfl hlog
  | context location type => exact hopen _ type _ _ rfl rfl (List.mem_singleton_self _)
  | viewmodel location type =>
    rw [Machine.directive]
    split
    · exact h.keep rfl hlog
    · exact hopen _ type _ _ rfl rfl (List.mem_singleton_self _)

/-- An element makes no node with a type. -/
theorem Typed.element [ScriptParser] (registry : Handlers) (h : m.Typed) (e : Element) :
    (m.element file registry e).2.Typed := by
  rw [Machine.element]
  split
  · exact h.keep rfl (List.Subset.refl _)
  · refine h.grow rfl (List.Subset.refl _) ?_
    intro n hn type isRoot location hkind
    rw [List.mem_singleton.mp hn] at hkind
    cases hkind

theorem Typed.step [ScriptParser] (registry : Handlers) (h : m.Typed) (x : Token) :
    (m.step file registry x).Typed := by
  cases x with
  | directive content => exact h.directive content
  | element e =>
    have helement : (m.element file registry e).2.Typed := h.element registry e
    rw [Machine.step]
    split
    · exact helement.keep rfl (List.Subset.refl _)
    · exact helement
    · split
      · exact h
      · exact h.keep rfl (List.Subset.refl _)

theorem typed_run [ScriptParser] (file : String) (registry : Handlers) (ts : List Token) :
    (run file registry ts).Typed :=
  List.foldlRecOn ts (Machine.step file registry) typed_initial fun _ h x _ => h.step registry x

/-- A directive of the log is one of the tokens. -/
theorem mem_of_mem_directives [ScriptParser] {registry : Handlers} {ts : List Token} {x : Directive}
    (hx : x ∈ (run file registry ts).directives) : .directive x ∈ ts := by
  rw [directives_run] at hx
  obtain ⟨y, hy, hxy⟩ := List.mem_filterMap.mp hx
  cases y with
  | directive content =>
    cases hxy
    exact hy
  | element e => cases hxy

end Machine

/-! ### Documents -/

section

variable [ScriptParser] {file text : String} {tokenized : Tokenized} {handlers : Handlers}
  {d : Document}

/-- An import of a document is one of its tokens. -/
theorem import_of_build (hd : (build file text tokenized handlers).document = some d)
    {i : Import} (hi : i ∈ d.imports) : .directive (.imports i) ∈ tokenized.tokens := by
  rw [document_eq_machine hd] at hi
  obtain ⟨x, hx, hxi⟩ := List.mem_filterMap.mp hi
  cases x with
  | imports content =>
    cases hxi
    exact Machine.mem_of_mem_directives hx
  | viewmodel | context | lint => cases hxi

/-- A type of a document is written in one of its tokens. -/
theorem type_of_build (hd : (build file text tokenized handlers).document = some d)
    {p : NodeId} {type : TypeReference} {isRoot : Bool} {location : Option Location}
    (hp : d.kind? p = some (.type ⟨some type, isRoot, location⟩)) :
    ∃ x, .directive x ∈ tokenized.tokens ∧ type.name ∈ x.names := by
  rw [document_eq_machine hd, Document.kind?] at hp
  cases p with
  | zero =>
    -- the root has the type of the first view model
    rw [Machine.getElem?_nodes_zero, Option.map_some, Option.some_inj] at hp
    obtain ⟨hview, -, -⟩ := TypeNode.mk.inj (NodeKind.type.inj hp)
    obtain ⟨⟨l, _⟩, hhead, rfl⟩ := Option.map_eq_some_iff.mp hview
    obtain ⟨x, hx, hxl⟩ := List.mem_filterMap.mp (List.mem_of_mem_head? hhead)
    cases x with
    | viewmodel location' type' =>
      cases hxl
      exact ⟨_, Machine.mem_of_mem_directives hx, List.mem_singleton_self _⟩
    | imports | context | lint => cases hxl
  | succ i =>
    rw [Machine.getElem?_nodes_succ, Option.map_map] at hp
    obtain ⟨n, hn, hkind⟩ := Option.map_eq_some_iff.mp hp
    obtain ⟨x, hx, hname⟩ := Machine.typed_run file handlers tokenized.tokens n
      (List.mem_of_getElem? hn) type isRoot location hkind
    exact ⟨x, Machine.mem_of_mem_directives hx, hname⟩

end

/-- The names that a document has from its directives have as many bytes as their places. -/
structure Document.NamesExact (d : Document) : Prop where
  imports : ∀ i ∈ d.imports, ∀ n ∈ (Directive.imports i).names, n.Exact
  types : ∀ p type isRoot location,
    d.kind? p = some (.type ⟨some type, isRoot, location⟩) → type.name.Exact

theorem namesExact_of_build [ScriptParser] {file text : String} {t : List Char} {options : Options}
    {tokenized : Tokenized} {handlers : Handlers} {d : Document}
    (ht : tokenize file t options = .ok tokenized)
    (hd : (build file text tokenized handlers).document = some d) : d.NamesExact := by
  have hexact : ∀ x, .directive x ∈ tokenized.tokens → ∀ n ∈ x.names, n.Exact := by
    intro x hx n hn
    obtain ⟨i, j, -, -, -, hsits⟩ := (row_of_tokenize ht).bounds hx
    obtain ⟨k, l, -, -, hstands⟩ := hsits.2.names n hn
    exact hstands.excerpt.utf8ByteSize_eq
  refine ⟨?_, ?_⟩
  · intro i hi
    exact hexact _ (import_of_build hd hi)
  · intro p type isRoot location hp
    obtain ⟨x, hx, hname⟩ := type_of_build hd hp
    exact hexact x hx _ hname

/-- The document of a view is built from its tokens. -/
theorem exists_of_parseView [ScriptParser] {settings : Settings} {view : View} {d : Document}
    (hd : (parseView settings view).document = some d) :
    ∃ tokenized,
      tokenize view.file (stripMark view.text.toList) settings.markup = .ok tokenized ∧
      (build view.file (.ofList (stripMark view.text.toList)) tokenized
        settings.registered).document = some d := by
  unfold parseView at hd
  dsimp only at hd
  split at hd
  · cases hd
  · next tokenized ht => exact ⟨tokenized, ht, hd⟩

end ViewLint
