import TreeEnsemble.Threshold.Build
import TreeEnsemble.Tree.Validation

/-!
A forest of decision trees. Each tree adds to one output group; the score of a group is its base
score plus the leaf values of its trees.
-/

namespace TreeEnsemble

structure Forest where
  trees : Array Tree
  /-- The group of each tree. -/
  groups : Array UInt32
  groupCount : UInt32
  featureCount : UInt64
  /-- The score of each group before any tree. -/
  baseScore : Array Binary32
  /-- The table that the trees' codes come from. -/
  table : Option ThresholdTable
  deriving DecidableEq

namespace Forest

/-- A forest without trees and with base scores of zero. -/
def new (featureCount : UInt64) (groupCount : UInt32) : Forest where
  trees := #[]
  groups := #[]
  groupCount := groupCount
  featureCount := featureCount
  baseScore := Array.replicate groupCount.toNat .zero
  table := none

def regression (featureCount : UInt64) : Forest := new featureCount 1

/-- The number of features of a row. -/
def width (f : Forest) : Nat := f.featureCount.toNat

/-- Sets the base scores, one for each group. -/
def setBaseScore (f : Forest) (scores : Array Binary32) : Except Fault Forest :=
  if scores.size = f.groupCount.toNat then .ok { f with baseScore := scores }
  else .error .unmet

/-- Takes the table and all codes away. -/
def clearBins (f : Forest) : Forest :=
  { f with trees := f.trees.map Tree.clearBins, table := none }

/-- Adds a tree to a group. The table does not know the new tree, so it goes, and the codes with
it. -/
def push (f : Forest) (t : Tree) (group : UInt32) : Except Fault Forest :=
  if group < f.groupCount then
    let grown := { f with trees := f.trees.push t, groups := f.groups.push group }
    .ok (if f.table.isSome then grown.clearBins else grown)
  else .error .noSuchGroup

def treesWithGroups (f : Forest) : List (Tree × UInt32) := f.trees.toList.zip f.groups.toList

/-- Whether there is a table and every tree has codes. -/
def isQuantized (f : Forest) : Bool := f.table.isSome && f.trees.all Tree.hasBins

/-- Equality of forests, with all scores and thresholds compared as numbers. -/
def eqv (f g : Forest) : Bool :=
  f.trees.isEqv g.trees Tree.eqv && f.groups == g.groups && f.groupCount == g.groupCount &&
    f.featureCount == g.featureCount && f.baseScore.isEqv g.baseScore Binary32.eqv &&
    match f.table, g.table with
    | none, none => true
    | some s, some t => s.eqv t
    | _, _ => false

end Forest

end TreeEnsemble
