import ViewLint.Proofs.Document.Balance
import ViewLint.Proofs.Markup.Constructs

/-!
# Kinds of elements

An element is written in tags, or it is a virtual one that is written in comments.  An end tag
closes the innermost open element if the names are the same; whether both are of the same kind is
not asked.  All virtual elements have one name, and an element in tags may have it too.  So the
kinds get mixed only under that name, and they do just if the tags are no longer balanced when the
names tell the kinds apart.

## Main definitions

* `Balanced` — the tags of a view close all open elements, and those that they open themselves.
* `pairs` — each end tag with the start tag that it closes.
* `Token.told` — a token whose name tells its kind.

## Main results

* `balanced_iff` — the tags are balanced just if the stack takes them.
* `Balanced.snd_pairs`, `Balanced.fst_pairs` — every tag is in one pair.
* `Balanced.told_iff` — when the tags stay balanced if the names tell the kinds.
* `balanced_of_document` — the tags of a view that has a document are balanced.
* `kinds_close_their_own_iff` — which pairs are of two kinds, and when there is none.
-/

namespace ViewLint

open Markup

/-! ### Balanced tags -/

/-- The tags of a view close all elements that are open, the innermost first, and all elements that
they open themselves. -/
inductive Balanced : List Element → List Token → Prop
  | nil : Balanced [] []
  | directive {stack : List Element} {ts : List Token} (d : Directive) (h : Balanced stack ts) :
    Balanced stack (.directive d :: ts)
  | start {stack : List Element} {ts : List Token} {e : Element} (htype : e.type = .start)
    (hdepth : stack.length < maxNesting) (h : Balanced (e :: stack) ts) :
    Balanced stack (.element e :: ts)
  | stop {stack : List Element} {ts : List Token} {o e : Element} (htype : e.type = .stop)
    (htag : o.tag = e.tag) (h : Balanced stack ts) : Balanced (o :: stack) (.element e :: ts)
  | empty {stack : List Element} {ts : List Token} {e : Element} (htype : e.type = .empty)
    (h : Balanced stack ts) : Balanced stack (.element e :: ts)

theorem balanced_directive_iff {stack : List Element} {d : Directive} {ts : List Token} :
    Balanced stack (.directive d :: ts) ↔ Balanced stack ts :=
  ⟨fun | .directive _ h => h, .directive d⟩

/-- An element opens, closes the innermost one or does neither, by its type. -/
theorem balanced_element_iff {stack : List Element} {e : Element} {ts : List Token} :
    Balanced stack (.element e :: ts) ↔
      match e.type, stack with
      | .start, _ => stack.length < maxNesting ∧ Balanced (e :: stack) ts
      | .stop, o :: rest => o.tag = e.tag ∧ Balanced rest ts
      | .stop, [] => False
      | .empty, _ => Balanced stack ts := by
  constructor
  · intro h
    cases h with
    | start htype hdepth h =>
      rw [htype]
      exact ⟨hdepth, h⟩
    | stop htype htag h =>
      rw [htype]
      exact ⟨htag, h⟩
    | empty htype h =>
      rw [htype]
      exact h
  · intro h
    split at h
    · next htype => exact .start htype h.1 h.2
    · next htype => exact .stop htype h.1 h.2
    · exact h.elim
    · next htype => exact .empty htype h

/-- The tags are balanced just if the stack takes them. -/
theorem balanced_iff {stack : List Element} {ts : List Token} :
    Balanced stack ts ↔ ts.foldlM stackTag stack >>= stackEnd = .ok () := by
  induction ts generalizing stack with
  | nil =>
    cases stack with
    | nil => exact iff_of_true .nil rfl
    | cons o rest => exact iff_of_false (by rintro ⟨⟩) (by rintro ⟨⟩)
  | cons t ts ih =>
    rw [List.foldlM_cons, bind_assoc]
    cases t with
    | directive d => exact balanced_directive_iff.trans ih
    | element e =>
      rw [balanced_element_iff]
      cases htype : e.type with
      | start =>
        simp only [stackTag, htype]
        by_cases hdepth : stack.length < maxNesting
        · rw [if_pos hdepth]
          exact (and_iff_right hdepth).trans ih
        · rw [if_neg hdepth]
          exact iff_of_false (fun h => hdepth h.1) (by rintro ⟨⟩)
      | stop =>
        cases stack with
        | nil =>
          simp only [stackTag, htype]
          exact iff_of_false id (by rintro ⟨⟩)
        | cons o rest =>
          simp only [stackTag, htype]
          by_cases htag : o.tag = e.tag
          · rw [if_pos htag]
            exact (and_iff_right htag).trans ih
          · rw [if_neg htag]
            exact iff_of_false (fun h => htag h.1) (by rintro ⟨⟩)
      | empty =>
        simp only [stackTag, htype]
        exact ih

/-! ### Pairs of tags -/

/-- Each end tag with the start tag that it closes, in the order of the end tags. -/
def pairs : List Element → List Token → List (Element × Element)
  | _, [] => []
  | stack, .directive _ :: ts => pairs stack ts
  | stack, .element e :: ts =>
    match e.type, stack with
    | .start, _ => pairs (e :: stack) ts
    | .stop, o :: rest => (o, e) :: pairs rest ts
    | .stop, [] => pairs [] ts
    | .empty, _ => pairs stack ts

/-- The tags of one type. -/
def tagsOf (type : TagType) (ts : List Token) : List Element :=
  ts.filterMap fun
    | .element e => if e.type = type then some e else none
    | .directive _ => none

/-- An element whose name tells its kind. -/
def Element.told (e : Element) : Element :=
  { e with tag := (if e.isVirtual then "virtual " else "real ") ++ e.tag }

/-- A token whose name tells its kind. -/
def Token.told : Token → Token
  | .element e => .element e.told
  | .directive d => .directive d

/-- Names that tell the kind are the same just if both the names and the kinds are. -/
theorem told_tag_eq_iff {e e' : Element} :
    e.told.tag = e'.told.tag ↔ e.tag = e'.tag ∧ e.isVirtual = e'.isVirtual := by
  rw [← String.toList_inj, ← String.toList_inj]
  cases h : e.isVirtual <;> cases h' : e'.isVirtual <;>
    simp [Element.told, h, h', String.toList_append]

namespace Balanced

variable {stack : List Element} {ts : List Token}

/-- Every end tag closes an element. -/
theorem snd_pairs (h : Balanced stack ts) : (pairs stack ts).map (·.2) = tagsOf .stop ts := by
  induction h with
  | nil => rfl
  | directive d h ih => exact ih
  | start htype hdepth h ih => simpa [pairs, tagsOf, htype] using ih
  | stop htype htag h ih => simpa [pairs, tagsOf, htype] using ih
  | empty htype h ih => simpa [pairs, tagsOf, htype] using ih

/-- Every element is closed by an end tag. -/
theorem fst_pairs (h : Balanced stack ts) :
    ((pairs stack ts).map (·.1)).Perm (stack ++ tagsOf .start ts) := by
  induction h with
  | nil => exact .refl _
  | directive d h ih => exact ih
  | start htype hdepth h ih =>
    simp only [pairs, tagsOf, htype, List.filterMap_cons, if_true]
    exact ih.trans List.perm_middle.symm
  | stop htype htag h ih => simpa [pairs, tagsOf, htype] using ih
  | empty htype h ih => simpa [pairs, tagsOf, htype] using ih

/-- An end tag has the name of the element that it closes. -/
theorem tag_eq (h : Balanced stack ts) : ∀ p ∈ pairs stack ts, p.1.tag = p.2.tag := by
  induction h with
  | nil => simp [pairs]
  | directive d h ih => exact ih
  | start htype hdepth h ih => simpa [pairs, htype] using ih
  | stop htype htag h ih => simpa [pairs, htype, htag] using ih
  | empty htype h ih => simpa [pairs, htype] using ih

/-- When the names tell the kinds, the tags stay balanced just if all pairs are of one kind. -/
theorem told_iff (h : Balanced stack ts) :
    Balanced (stack.map Element.told) (ts.map Token.told) ↔
      ∀ p ∈ pairs stack ts, p.1.isVirtual = p.2.isVirtual := by
  induction h with
  | nil => simp [pairs, Balanced.nil]
  | directive d h ih => exact balanced_directive_iff.trans ih
  | @start stack ts e htype hdepth h ih =>
    rw [List.map_cons, Token.told, balanced_element_iff]
    simp only [pairs, show e.told.type = .start from htype, htype, List.length_map, hdepth,
      true_and]
    exact ih
  | @stop stack ts o e htype htag h ih =>
    rw [List.map_cons, List.map_cons, Token.told, balanced_element_iff]
    simp only [pairs, show e.told.type = .stop from htype, htype, told_tag_eq_iff, htag, true_and,
      ih, List.forall_mem_cons]
  | @empty stack ts e htype h ih =>
    rw [List.map_cons, Token.told, balanced_element_iff]
    simp only [pairs, show e.told.type = .empty from htype, htype]
    exact ih

end Balanced

theorem mem_of_mem_tagsOf {type : TagType} {ts : List Token} {e : Element}
    (h : e ∈ tagsOf type ts) :
    .element e ∈ ts := by
  obtain ⟨t, ht, hte⟩ := List.mem_filterMap.mp h
  cases t with
  | directive d => cases hte
  | element e' =>
    dsimp only at hte
    split at hte
    · cases hte
      exact ht
    · cases hte

/-! ### Kinds -/

/-- The tags of a view that has a document are balanced. -/
theorem balanced_of_document [ScriptParser] {file text : String} {tokenized : Tokenized}
    {handlers : Handlers} (h : (build file text tokenized handlers).document.isSome) :
    Balanced [] tokenized.tokens := by
  have hagrees := agrees_buildTokens file text tokenized handlers
  rw [balanced_iff]
  change replay tokenized.tokens = .ok ()
  cases hreplay : replay tokenized.tokens with
  | ok _ => rfl
  | error m =>
    rw [hreplay] at hagrees
    unfold build at h
    cases hbuild : buildTokens file text tokenized handlers with
    | ok r =>
      rw [hbuild] at hagrees
      exact hagrees.elim
    | error failure =>
      rw [hbuild] at h
      cases h

/-- **Only under the name of virtual elements the kinds get mixed.**  In a view that has a document
every tag is in one pair of a start tag and the end tag that closes it, and both have the same name.
They are of two kinds only if that is the name of virtual elements, and all pairs are of one kind
just if the tags are still balanced when the names tell the kinds apart. -/
theorem kinds_close_their_own_iff [ScriptParser] {file : String} {text : List Char}
    {options : Options} {tokenized : Tokenized} (h : tokenize file text options = .ok tokenized)
    {text' : String} {handlers : Handlers}
    (hd : (build file text' tokenized handlers).document.isSome) :
    ((pairs [] tokenized.tokens).map (·.2) = tagsOf .stop tokenized.tokens ∧
      ((pairs [] tokenized.tokens).map (·.1)).Perm (tagsOf .start tokenized.tokens)) ∧
    (∀ p ∈ pairs [] tokenized.tokens, p.1.tag = p.2.tag ∧
      (p.1.isVirtual ≠ p.2.isVirtual → p.1.tag = virtualTag)) ∧
    ((∀ p ∈ pairs [] tokenized.tokens, p.1.isVirtual = p.2.isVirtual) ↔
      replay (tokenized.tokens.map Token.told) = .ok ()) := by
  have hbalanced := balanced_of_document hd
  have hends := hbalanced.snd_pairs
  have hstarts := hbalanced.fst_pairs
  refine ⟨⟨hends, hstarts⟩, fun p hp => ⟨hbalanced.tag_eq p hp, fun hmixed => ?_⟩, ?_⟩
  · have hstart := mem_of_mem_tagsOf (hstarts.mem_iff.mp (List.mem_map_of_mem hp))
    have hend := mem_of_mem_tagsOf (hends ▸ List.mem_map_of_mem hp)
    -- one of the two is virtual, and they have the same name
    cases hkind : p.1.isVirtual with
    | true => exact tag_of_virtual h hstart hkind
    | false =>
      rw [hbalanced.tag_eq p hp]
      exact tag_of_virtual h hend (by simpa [hkind] using hmixed)
  · exact hbalanced.told_iff.symm.trans balanced_iff

/-- A view with elements of both kinds inside each other. -/
def bothKindsView : String := "<b><!-- ko if: a --><ko><br></ko><!-- /ko --></b>"

theorem kinds_close_their_own_iff_bothKindsView :
    ∃ tokenized,
      tokenize "view.html" bothKindsView.toList ⟨["data-bind"], false⟩ = .ok tokenized ∧
      (build "view.html" bothKindsView tokenized ⟨.empty, .empty⟩).document.isSome ∧
      (pairs [] tokenized.tokens).map (fun p => (p.1.tag, p.1.isVirtual)) =
        [("ko", false), ("ko", true), ("b", false)] ∧
      ∀ p ∈ pairs [] tokenized.tokens, p.1.isVirtual = p.2.isVirtual := by
  have hview : (tokenize "view.html" bothKindsView.toList ⟨["data-bind"], false⟩).toOption.map
      (fun tokenized =>
        ((build "view.html" bothKindsView tokenized ⟨.empty, .empty⟩).document.isSome,
        (pairs [] tokenized.tokens).map (fun p => (p.1.tag, p.1.isVirtual)),
        replay (tokenized.tokens.map Token.told))) =
      some (true, [("ko", false), ("ko", true), ("b", false)], .ok ()) := by
    decide +kernel
  obtain ⟨tokenized, ht, hread⟩ := Option.map_eq_some_iff.mp hview
  simp only [Prod.mk.injEq] at hread
  obtain ⟨hd, hpairs, hreplay⟩ := hread
  have htokenize := Except.toOption_eq_some.mp ht
  exact ⟨tokenized, htokenize, hd, hpairs, (kinds_close_their_own_iff htokenize hd).2.2.mpr hreplay⟩

/-- A view where a comment closes an element in tags. -/
def mixedKindsView : String := "<ko><!-- /ko -->"

/-- The view has a document, and the one pair of tags in it is of two kinds. -/
theorem kinds_are_mixed :
    ∃ tokenized,
      tokenize "view.html" mixedKindsView.toList ⟨["data-bind"], false⟩ = .ok tokenized ∧
      (build "view.html" mixedKindsView tokenized ⟨.empty, .empty⟩).document.isSome ∧
      (pairs [] tokenized.tokens).map (fun p => (p.1.isVirtual, p.2.isVirtual)) =
        [(false, true)] := by
  have hview : (tokenize "view.html" mixedKindsView.toList ⟨["data-bind"], false⟩).toOption.map
      (fun tokenized =>
        ((build "view.html" mixedKindsView tokenized ⟨.empty, .empty⟩).document.isSome,
          (pairs [] tokenized.tokens).map (fun p => (p.1.isVirtual, p.2.isVirtual)))) =
      some (true, [(false, true)]) := by
    decide +kernel
  obtain ⟨tokenized, ht, hread⟩ := Option.map_eq_some_iff.mp hview
  obtain ⟨hd, hpairs⟩ := Prod.mk.inj hread
  exact ⟨tokenized, Except.toOption_eq_some.mp ht, hd, hpairs⟩

end ViewLint
