import TreeEnsemble.Model.Load

/-!
Documents of models, as loading reads them. Every field is written, also the codes of a tree without
codes and the table of a forest without table.
-/

namespace TreeEnsemble

namespace Document

def ofWord32 (n : UInt32) : Document := .integer n.toNat

def ofWord64 (n : UInt64) : Document := .integer n.toNat

def ofInt32 (n : Int32) : Document := .integer n.toInt

/-- The document of a number; only finite numbers have one. -/
def ofNumber (x : Binary32) : Document := if x.isFinite then .text x.toHex else .null

def ofComparison (c : Comparison) : Document := .text c.name

def ofArray {α : Type} (f : α → Document) (xs : Array α) : Document := .list (xs.toList.map f)

end Document

open Document

def ThresholdTable.dump (t : ThresholdTable) : Document :=
  .record [("thresholds", ofArray ofNumber t.thresholds), ("offsets", ofArray ofWord32 t.offsets)]

def Tree.dump (t : Tree) : Document :=
  .record
    [(featuresName, ofArray ofWord32 t.features),
      (Column.thresholds.name, ofArray ofNumber t.thresholds),
      (thresholdBinsName, ofArray ofInt32 t.thresholdBins),
      (zeroBinsName, ofArray ofInt32 t.zeroBins),
      (Column.comparisons.name, ofArray ofComparison t.comparisons),
      (Column.left.name, ofArray ofWord32 t.left),
      (Column.right.name, ofArray ofWord32 t.right),
      (Column.defaultLeft.name, ofArray .boolean t.defaultLeft),
      (Column.missingAsZero.name, ofArray .boolean t.missingAsZero),
      (Column.leaf.name, ofArray .boolean t.leaf),
      (Column.values.name, ofArray ofNumber t.values)]

def Forest.dump (f : Forest) : Document :=
  .record
    [("trees", ofArray Tree.dump f.trees),
      ("tree_groups", ofArray ofWord32 f.groups),
      ("n_groups", ofWord32 f.groupCount),
      ("n_features", ofWord64 f.featureCount),
      ("base_score", ofArray ofNumber f.baseScore),
      ("threshold_table", match f.table with
        | some t => t.dump
        | none => .null)]

/-- The forest after its document was written and read again. -/
def Forest.reload (f : Forest) : Attempt LoadError Forest := Forest.load f.dump

end TreeEnsemble
