import TreeEnsemble.Tree.Validation

/-!
A tree under construction. Every node starts as a leaf of value 0; splitting a node appends its two
children at the end. A finished draft becomes a tree if every node is still reached: a split that
was overwritten leaves its children behind.
-/

namespace TreeEnsemble

structure DraftNode where
  feature : UInt32
  threshold : Binary32
  comparison : Comparison
  defaultLeft : Bool
  missingAsZero : Bool
  left : Nat
  right : Nat
  leaf : Bool
  value : Binary32
  deriving DecidableEq

def DraftNode.ofValue (value : Binary32) : DraftNode where
  feature := 0
  threshold := .zero
  comparison := .lt
  defaultLeft := false
  missingAsZero := false
  left := 0
  right := 0
  leaf := true
  value := value

structure Draft where
  nodes : Array DraftNode
  deriving DecidableEq

/-- The question that a split asks of an instance. -/
structure Question where
  feature : UInt32
  threshold : Binary32
  comparison : Comparison
  defaultLeft : Bool
  deriving DecidableEq

namespace Draft

def empty : Draft := ⟨#[]⟩

def root : Draft := ⟨#[.ofValue .zero]⟩

def size (d : Draft) : Nat := d.nodes.size

def modify (d : Draft) (node : Nat) (f : DraftNode → DraftNode) : Except Fault Draft := do
  let old ← fetch d.nodes node
  let nodes ← store d.nodes node (f old)
  pure ⟨nodes⟩

/-- Makes a node a split over two new leaves, which are the last two nodes of the result. The
leaves are there before the node is looked up. Node numbers have 32 bits, and the number of the
second leaf must not overflow. -/
def split (d : Draft) (node : Nat) (q : Question) : Except Fault Draft :=
  if UInt32.ofNat d.size = 0xffffffff then .error .unmet
  else
    let grown : Draft := ⟨(d.nodes.push (.ofValue .zero)).push (.ofValue .zero)⟩
    grown.modify node fun n =>
      { n with
        feature := q.feature
        threshold := q.threshold
        comparison := q.comparison
        defaultLeft := q.defaultLeft
        left := d.size
        right := d.size + 1
        leaf := false }

/-- Says whether a split compares a missing feature as zero. -/
def setMissingAsZero (d : Draft) (node : Nat) (flag : Bool) : Except Fault Draft :=
  d.modify node fun n => { n with missingAsZero := flag }

/-- Makes a node a leaf and forgets all else about it. -/
def setLeaf (d : Draft) (node : Nat) (value : Binary32) : Except Fault Draft :=
  d.modify node fun _ => .ofValue value

/-- The columns of the draft, unchecked. -/
def toTree (d : Draft) : Tree where
  features := d.nodes.map (·.feature)
  thresholds := d.nodes.map (·.threshold)
  thresholdBins := #[]
  zeroBins := #[]
  comparisons := d.nodes.map (·.comparison)
  left := d.nodes.map fun n => UInt32.ofNat n.left
  right := d.nodes.map fun n => UInt32.ofNat n.right
  defaultLeft := d.nodes.map (·.defaultLeft)
  missingAsZero := d.nodes.map fun n => n.missingAsZero && !n.leaf
  leaf := d.nodes.map (·.leaf)
  values := d.nodes.map (·.value)

def build (d : Draft) : Attempt TreeError Tree := d.toTree.checked

inductive Edit where
  | root
  | split (node : Nat) (question : Question)
  | missingAsZero (node : Nat) (flag : Bool)
  | leaf (node : Nat) (value : Binary32)
  deriving DecidableEq

def apply (d : Draft) : Edit → Except Fault Draft
  | .root => .ok root
  | .split node q => d.split node q
  | .missingAsZero node flag => d.setMissingAsZero node flag
  | .leaf node value => d.setLeaf node value

def run (d : Draft) (edits : List Edit) : Except Fault Draft := edits.foldlM apply d

end Draft

def Tree.stump (q : Question) (left right : Binary32) : Attempt TreeError Tree := do
  let d ← Draft.run .root [.split 0 q, .leaf 1 left, .leaf 2 right]
  d.build

end TreeEnsemble
