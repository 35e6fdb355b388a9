import TreeEnsemble.Forest.Basic
import TreeEnsemble.Model.Document

/-!
Loading of models from documents. A threshold table is checked as it is read; trees and forests are
taken as they are and have checks of their own.
-/

namespace TreeEnsemble

open Reader

def ThresholdTable.knownFields : List (String × Reader Unit) :=
  [("thresholds", check (array number)), ("offsets", check (array word32))]

def ThresholdTable.load : Reader ThresholdTable := fun d => do
  let fields ← checkedFields knownFields d
  let thresholds ← required fields "thresholds" (array number)
  let offsets ← required fields "offsets" (array word32)
  (ofParts thresholds offsets).mapErrors .rejected

/-- The names under which documents hold the codes of a tree. -/
def Tree.thresholdBinsName : String := "bin_thresholds"

def Tree.zeroBinsName : String := "bin_zeros"

def Tree.featuresName : String := "split_indices"

def Tree.knownFields : List (String × Reader Unit) :=
  [(featuresName, check (array word32)),
    (Column.thresholds.name, check (array number)),
    (thresholdBinsName, check (array int32)),
    (zeroBinsName, check (array int32)),
    (Column.comparisons.name, check (array Reader.comparison)),
    (Column.left.name, check (array word32)),
    (Column.right.name, check (array word32)),
    (Column.defaultLeft.name, check (array boolean)),
    (Column.missingAsZero.name, check (array boolean)),
    (Column.leaf.name, check (array boolean)),
    (Column.values.name, check (array number))]

def Tree.load : Reader Tree := fun d => do
  let fields ← checkedFields knownFields d
  let features ← required fields featuresName (array word32)
  let thresholds ← required fields Column.thresholds.name (array number)
  let thresholdBins ← optional fields thresholdBinsName (array int32) #[]
  let zeroBins ← optional fields zeroBinsName (array int32) #[]
  let comparisons ← required fields Column.comparisons.name (array Reader.comparison)
  let left ← required fields Column.left.name (array word32)
  let right ← required fields Column.right.name (array word32)
  let defaultLeft ← required fields Column.defaultLeft.name (array boolean)
  let missingAsZero ← required fields Column.missingAsZero.name (array boolean)
  let leaf ← required fields Column.leaf.name (array boolean)
  let values ← required fields Column.values.name (array number)
  pure { features, thresholds, thresholdBins, zeroBins, comparisons, left, right, defaultLeft,
         missingAsZero, leaf, values }

def Forest.knownFields : List (String × Reader Unit) :=
  [("trees", check (array Tree.load)),
    ("tree_groups", check (array word32)),
    ("n_groups", check word32),
    ("n_features", check word64),
    ("base_score", check (array number)),
    ("threshold_table", check (option ThresholdTable.load))]

def Forest.load : Reader Forest := fun d => do
  let fields ← checkedFields knownFields d
  let trees ← required fields "trees" (array Tree.load)
  let groups ← required fields "tree_groups" (array word32)
  let groupCount ← required fields "n_groups" word32
  let featureCount ← required fields "n_features" word64
  let baseScore ← required fields "base_score" (array number)
  let table ← optional fields "threshold_table" (option ThresholdTable.load) none
  pure { trees, groups, groupCount, featureCount, baseScore, table }

end TreeEnsemble
