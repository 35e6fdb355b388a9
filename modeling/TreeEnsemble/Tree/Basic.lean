import TreeEnsemble.Binary32
import TreeEnsemble.Comparison
import TreeEnsemble.Fault

/-!
A decision tree, stored by columns: each property of the nodes has an array of its own, indexed by
the node. The root is node 0. Columns of a tree from outside may have any lengths and contents;
reading a node that a column lacks is a fault.
-/

namespace TreeEnsemble

structure Tree where
  features : Array UInt32
  thresholds : Array Binary32
  /-- The codes of the thresholds; empty until a threshold table is assigned. -/
  thresholdBins : Array Int32
  /-- The code of zero for each node's feature; empty until a threshold table is assigned. -/
  zeroBins : Array Int32
  comparisons : Array Comparison
  left : Array UInt32
  right : Array UInt32
  defaultLeft : Array Bool
  missingAsZero : Array Bool
  leaf : Array Bool
  values : Array Binary32
  deriving DecidableEq

namespace Tree

def constant (value : Binary32) : Tree where
  features := #[0]
  thresholds := #[.zero]
  thresholdBins := #[]
  zeroBins := #[]
  comparisons := #[.lt]
  left := #[0]
  right := #[0]
  defaultLeft := #[false]
  missingAsZero := #[false]
  leaf := #[true]
  values := #[value]

def size (t : Tree) : Nat := t.features.size

def isLeaf (t : Tree) (node : Nat) : Except Fault Bool := fetch t.leaf node

def feature (t : Tree) (node : Nat) : Except Fault Nat := do
  let f ← fetch t.features node
  pure f.toNat

def threshold (t : Tree) (node : Nat) : Except Fault Binary32 := fetch t.thresholds node

def thresholdBin (t : Tree) (node : Nat) : Except Fault Int32 := fetch t.thresholdBins node

def zeroBin (t : Tree) (node : Nat) : Except Fault Int32 := fetch t.zeroBins node

def comparison (t : Tree) (node : Nat) : Except Fault Comparison := fetch t.comparisons node

def leftChild (t : Tree) (node : Nat) : Except Fault Nat := do
  let child ← fetch t.left node
  pure child.toNat

def rightChild (t : Tree) (node : Nat) : Except Fault Nat := do
  let child ← fetch t.right node
  pure child.toNat

def goesLeft (t : Tree) (node : Nat) : Except Fault Bool := fetch t.defaultLeft node

/-- The child taken when the feature is missing. -/
def defaultChild (t : Tree) (node : Nat) : Except Fault Nat := do
  if ← t.goesLeft node then t.leftChild node else t.rightChild node

/-- Whether a missing feature is compared as zero instead. -/
def readsZero (t : Tree) (node : Nat) : Except Fault Bool := fetch t.missingAsZero node

def leafValue (t : Tree) (node : Nat) : Except Fault Binary32 := fetch t.values node

def leafCount (t : Tree) : Nat := t.leaf.toList.countP id

def splitsAmong (t : Tree) : List Nat → Except Fault (List Nat)
  | [] => pure []
  | node :: nodes => do
    let leaf ← t.isLeaf node
    let rest ← t.splitsAmong nodes
    pure (if leaf then rest else node :: rest)

/-- The split nodes, in increasing order. -/
def splitNodes (t : Tree) : Except Fault (List Nat) := t.splitsAmong (List.range t.size)

def maxFeature (t : Tree) : Except Fault (Option Nat) := do
  let splits ← t.splitNodes
  let features ← splits.mapM t.feature
  pure features.max?

def hasBins (t : Tree) : Bool := t.thresholdBins.size == t.size && t.zeroBins.size == t.size

def clearBins (t : Tree) : Tree := { t with thresholdBins := #[], zeroBins := #[] }

/-- Equality of trees, with thresholds and leaf values compared as numbers. -/
def eqv (s t : Tree) : Bool :=
  s.features == t.features && s.thresholds.isEqv t.thresholds Binary32.eqv &&
    s.thresholdBins == t.thresholdBins && s.zeroBins == t.zeroBins &&
    s.comparisons == t.comparisons && s.left == t.left && s.right == t.right &&
    s.defaultLeft == t.defaultLeft && s.missingAsZero == t.missingAsZero && s.leaf == t.leaf &&
    s.values.isEqv t.values Binary32.eqv

end Tree

end TreeEnsemble
