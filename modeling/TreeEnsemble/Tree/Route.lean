import TreeEnsemble.Slot
import TreeEnsemble.Tree.Basic

/-!
The route of one instance through a tree, from a node down to a leaf. A split compares the
instance's value with its threshold, on one of two scales: the numbers themselves, or their codes.
-/

namespace TreeEnsemble

/-- What a walk compares: raw values with thresholds, or bins with the codes of thresholds. -/
inductive Scale where
  | raw
  | binned
  deriving DecidableEq

namespace Scale

def name : Scale → String
  | raw => "raw"
  | binned => "binned"

/-- The order of a slot's value and a node's threshold. The slot is read on this scale whatever
was written into it. -/
def order (scale : Scale) (t : Tree) (node : Nat) (slot : Slot) :
    Except Fault (Option Ordering) :=
  match scale with
  | raw => do
    let threshold ← t.threshold node
    pure (slot.asFloat.compare? threshold)
  | binned => do
    let bin ← t.thresholdBin node
    pure (some (compare slot.asBin.toInt bin.toInt))

/-- The slot that stands for a value of zero at a node. -/
def zeroSlot (scale : Scale) (t : Tree) (node : Nat) : Except Fault Slot :=
  match scale with
  | raw => pure (.ofFloat .zero)
  | binned => do
    let bin ← t.zeroBin node
    pure (.ofBin bin)

end Scale

/-- The slot of a feature, unless it is missing or beyond the slots. -/
def present? (slots : Array Slot) (feature : Nat) : Option Slot :=
  slots[feature]?.filter fun s => !s.isMissing

/-- The splits that a route tests, in order, and the leaf where it ends. -/
structure Route where
  splits : List Nat
  leaf : Nat
  deriving DecidableEq

namespace Tree

/-- The child that a value chooses at a split: left if the comparison holds. -/
def branch (t : Tree) (scale : Scale) (node : Nat) (slot : Slot) : Except Fault Nat := do
  let comparison ← t.comparison node
  let order ← scale.order t node slot
  if comparison.holds order then t.leftChild node else t.rightChild node

/-- The child that an instance takes at a split. A missing value is compared as zero where the
split says so, and takes the default child elsewhere. -/
def childFor (t : Tree) (scale : Scale) (slots : Array Slot) (node : Nat) : Except Fault Nat := do
  let feature ← t.feature node
  match present? slots feature with
  | some slot => t.branch scale node slot
  | none =>
    if ← t.readsZero node then
      let slot ← scale.zeroSlot t node
      t.branch scale node slot
    else t.defaultChild node

/-- The route from a node, through `fuel` splits at most. -/
def routeWithin (t : Tree) (scale : Scale) (slots : Array Slot) :
    (fuel : Nat) → (node : Nat) → Except Fault Route
  | 0, _ => .error .endless
  | fuel + 1, node => do
    if ← t.isLeaf node then pure ⟨[], node⟩
    else
      let child ← t.childFor scale slots node
      let route ← t.routeWithin scale slots fuel child
      pure { route with splits := node :: route.splits }

/-- The route from a node. A walk that tests more splits than there are nodes has entered a
cycle. -/
def routeFrom (t : Tree) (scale : Scale) (slots : Array Slot) (start : Nat) : Except Fault Route :=
  t.routeWithin scale slots (t.size + 1) start

def leafFrom (t : Tree) (scale : Scale) (slots : Array Slot) (start : Nat) : Except Fault Nat := do
  let route ← t.routeFrom scale slots start
  pure route.leaf

def leafFor (t : Tree) (scale : Scale) (slots : Array Slot) : Except Fault Nat :=
  t.leafFrom scale slots 0

end Tree

end TreeEnsemble
