import TreeEnsemble.Forest.Quantization
import TreeEnsemble.Sample.Features
import TreeEnsemble.Tree.Draft

/-!
Random forests: full trees of one depth, with random splits on the grid, in groups by turns.
-/

namespace TreeEnsemble.Sample

variable {σ : Type}

/-- Grows a full tree below a node, the left side first. -/
def grow (d : Draws σ) (features : Nat) :
    (depth : Nat) → Draft → (node : Nat) → σ → Except Fault (Draft × σ)
  | 0, draft, node, s => do
    let (value, s) := d.between ⟨0xbf800000⟩ ⟨0x3f800000⟩ s
    let draft ← draft.setLeaf node value
    pure (draft, s)
  | depth + 1, draft, node, s => do
    let (feature, s) := d.below features s
    let (code, s) := d.below 5 s
    let (threshold, s) := drawGridValue d s
    let (defaultLeft, s) := d.chance 50 s
    let left := draft.size
    let draft ← draft.split node
      ⟨UInt32.ofNat feature, threshold, Comparison.ofCode code, defaultLeft⟩
    let (flag, s) := d.chance 25 s
    let draft ← draft.setMissingAsZero node flag
    let (draft, s) ← grow d features depth draft left s
    grow d features depth draft (left + 1) s

/-- A random full tree. Trees with splits need a feature. -/
def tree (d : Draws σ) (depth features : Nat) (s : σ) : Except Fault (Tree × σ) := do
  if features = 0 ∧ depth ≠ 0 then .error .unmet
  else
    let (draft, s) ← grow d features depth .root 0 s
    match ← draft.build.settle with
    | .ok t => pure (t, s)
    | .error _ => .error .unmet

/-- Adds `n` random trees, numbered from `i` on, to a forest. -/
def addTrees (d : Draws σ) (depth : Nat) : (n i : Nat) → Forest → σ → Except Fault (Forest × σ)
  | 0, _, f, s => .ok (f, s)
  | n + 1, i, f, s => do
    let (t, s) ← tree d depth f.width s
    if f.groupCount = 0 then .error .unmet
    else
      let f ← f.push t (UInt32.ofNat i % f.groupCount)
      addTrees d depth n (i + 1) f s

/-- A random forest. -/
def forest (d : Draws σ) (trees depth : Nat) (features : UInt64) (groups : UInt32) (s : σ) :
    Except Fault Forest := do
  let (scores, s) := drawList (d.between ⟨0xbf000000⟩ ⟨0x3f000000⟩) groups.toNat s
  let f ← (Forest.new features groups).setBaseScore scores.toArray
  let (f, _) ← addTrees d depth trees 0 f s
  pure f

end TreeEnsemble.Sample
