import TreeEnsemble.Threshold.Table
import TreeEnsemble.Tree.Basic

/-!
Codes for the thresholds of a tree, taken from a threshold table.
-/

namespace TreeEnsemble.Tree

/-- The codes of a node's threshold and of zero for its feature. Leaves have no use for codes and
get zeros. -/
def nodeBins (t : Tree) (table : ThresholdTable) (node : Nat) :
    Attempt QuantizeError (Int32 × Int32) := do
  if ← t.isLeaf node then pure (0, 0)
  else
    let feature ← t.feature node
    let threshold ← t.threshold node
    match ← table.thresholdBin feature threshold with
    | none => fail (.thresholdNotInTable feature threshold)
    | some bin => do
      let zero ← table.valueBin feature .zero
      pure (bin, zero)

def assignBins (t : Tree) (table : ThresholdTable) : Attempt QuantizeError Tree := do
  let bins ← (List.range t.size).mapM (t.nodeBins table)
  pure { t with
    thresholdBins := (bins.map Prod.fst).toArray
    zeroBins := (bins.map Prod.snd).toArray }

end TreeEnsemble.Tree
