import TreeEnsemble.Forest.Basic

/-!
The check of a forest: one base score per group, one group per tree, groups in range, well-formed
trees, and splits on features that rows have.
-/

namespace TreeEnsemble

inductive ForestError where
  | baseScoreLength (groups length : Nat)
  | groupsLength (trees length : Nat)
  | groupOutOfRange (tree group groups : Nat)
  | featureOutOfRange (tree node feature features : Nat)
  | invalidTree (tree : Nat) (error : TreeError)
  deriving DecidableEq

namespace ForestError

def message : ForestError → String
  | baseScoreLength groups length => s!"base score has {length} entries, expected {groups}"
  | groupsLength trees length => s!"{length} group assignments for {trees} trees"
  | groupOutOfRange tree group groups =>
    s!"tree {tree} assigned to group {group}, forest has {groups} groups"
  | featureOutOfRange tree node feature features =>
    s!"tree {tree} node {node} splits on feature {feature}, forest has {features} features"
  | invalidTree tree error => s!"tree {tree} is invalid: " ++ error.message

def causes : ForestError → List String
  | invalidTree _ error => [error.message]
  | _ => []

end ForestError

namespace Forest

/-- The first of the nodes whose feature is not below a bound, with that feature. -/
def firstWideSplit (t : Tree) (bound : Nat) : List Nat → Except Fault (Option (Nat × Nat))
  | [] => pure none
  | node :: nodes => do
    let feature ← t.feature node
    if bound ≤ feature then pure (some (node, feature)) else firstWideSplit t bound nodes

def checkTree (f : Forest) (t : Tree) (place : Nat) : Attempt ForestError Unit := do
  t.validate.mapErrors (.invalidTree place)
  let splits ← t.splitNodes
  match ← firstWideSplit t f.width splits with
  | some (node, feature) => fail (.featureOutOfRange place node feature f.width)
  | none => pure ()

def checkLengths (f : Forest) : Attempt ForestError Unit :=
  if f.baseScore.size ≠ f.groupCount.toNat then
    fail (.baseScoreLength f.groupCount.toNat f.baseScore.size)
  else if f.groups.size ≠ f.trees.size then fail (.groupsLength f.trees.size f.groups.size)
  else pure ()

def checkGroups (f : Forest) : Attempt ForestError Unit :=
  match f.groups.toList.zipIdx.find? fun g => decide (f.groupCount ≤ g.1) with
  | some (group, place) => fail (.groupOutOfRange place group.toNat f.groupCount.toNat)
  | none => pure ()

/-- Checks a forest and reports the first defect. -/
def validate (f : Forest) : Attempt ForestError Unit := do
  f.checkLengths
  f.checkGroups
  f.trees.toList.zipIdx.forM fun t => f.checkTree t.1 t.2

end Forest

end TreeEnsemble
