import TreeEnsemble.Forest.Basic
import TreeEnsemble.Tree.Bins

/-!
Quantization gives every split of a forest the code of its threshold in one table, either the table
of all thresholds of the forest or one from outside. Where it fails, no code is left behind.
-/

namespace TreeEnsemble.Forest

/-- The feature and the threshold of a split; nothing for a leaf. -/
def splitOf (t : Tree) (place bound node : Nat) :
    Attempt QuantizeError (Option (Nat × Binary32)) := do
  if ← t.isLeaf node then pure none
  else
    let feature ← t.feature node
    let threshold ← t.threshold node
    if threshold.isNaN then fail (.nanThreshold place node)
    else if bound ≤ feature then fail (.featureOutOfRange place node feature bound)
    else pure (some (feature, threshold))

def splitsOf (t : Tree) (place bound : Nat) : Attempt QuantizeError (List (Nat × Binary32)) := do
  let splits ← (List.range t.size).mapM (splitOf t place bound)
  pure (splits.filterMap id)

def splits (f : Forest) : Attempt QuantizeError (List (Nat × Binary32)) := do
  let perTree ← f.trees.toList.zipIdx.mapM fun t => splitsOf t.1 t.2 f.width
  pure perTree.flatten

def thresholdsOn (feature : Nat) (splits : List (Nat × Binary32)) : List Binary32 :=
  splits.filterMap fun s => if s.1 = feature then some s.2 else none

/-- The table of all thresholds of the forest. -/
def ownTable (f : Forest) : Attempt QuantizeError ThresholdTable := do
  let splits ← f.splits
  let lists := (List.range f.width).map fun feature => thresholdsOn feature splits
  match ThresholdTable.ofLists lists with
  | .ok table => pure table
  | .error e => fail e

def codedTrees (f : Forest) (table : ThresholdTable) : Attempt QuantizeError (List Tree) :=
  f.trees.toList.mapM fun t => t.assignBins table

/-- Codes the forest with a table. A table for fewer features than the forest's is refused at once;
a table that lacks a threshold leaves the forest without codes. The first part of the result is
the forest afterwards. -/
def quantizeWith (f : Forest) (table : ThresholdTable) :
    Except Fault (Forest × Except QuantizeError Unit) := do
  if table.featureCount < f.width then
    pure (f, .error (.tableTooSmall table.featureCount f.width))
  else
    match ← (f.codedTrees table).settle with
    | .ok trees => pure ({ f with trees := trees.toArray, table := some table }, .ok ())
    | .error e => pure (f.clearBins, .error e)

def quantize (f : Forest) : Except Fault (Forest × Except QuantizeError Unit) := do
  match ← f.ownTable.settle with
  | .ok table => f.quantizeWith table
  | .error e => pure (f, .error e)

inductive Change where
  | baseScore (scores : Array Binary32)
  | push (tree : Tree) (group : UInt32)
  | quantize
  | quantizeWith (table : ThresholdTable)
  deriving DecidableEq

/-- The forest after a change, whether the change succeeded or failed. -/
def change (f : Forest) : Change → Except Fault Forest
  | .baseScore scores => f.setBaseScore scores
  | .push t group => f.push t group
  | .quantize => do
    let (f, _) ← f.quantize
    pure f
  | .quantizeWith table => do
    let (f, _) ← f.quantizeWith table
    pure f

def run (f : Forest) (changes : List Change) : Except Fault Forest := changes.foldlM change f

end TreeEnsemble.Forest
