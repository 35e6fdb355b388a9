import TreeEnsemble.Predictor.Batch
import TreeEnsemble.Proofs.Tree.Recoding

/-!
Predictors on raw values do not see codes. A walk by numbers reads none, and no other part of a
prediction reads one, so without the codes and the table of its forest such a predictor does the
same with every row and every batch. This holds of any forest, valid or not.
-/

namespace TreeEnsemble.Predictor

/-- The predictor on the forest without table and codes. -/
def uncoded (p : Predictor) : Predictor := { p with forest := p.forest.clearBins }

theorem treesWithGroups_clearBins (f : Forest) :
    f.clearBins.treesWithGroups = f.treesWithGroups.map (Prod.map Tree.clearBins id) := by
  rw [Forest.treesWithGroups, Forest.clearBins, Array.toList_map, List.zip_map_left]
  rfl

theorem bindRows_uncoded (p : Predictor) (features : Matrix) (buffer : Span) (k : Nat)
    (arena : Arena) (rows : List Nat) :
    p.uncoded.bindRows features buffer k arena rows = p.bindRows features buffer k arena rows := by
  induction rows generalizing k arena with
  | nil => rfl
  | cons i rows ih =>
    simp only [bindRows, ih]
    rfl

section Raw

variable {p : Predictor} (hraw : p.coder = .raw)

include hraw

theorem leafScore_uncoded (t : Tree) (slots : Array Slot) :
    p.uncoded.leafScore t.clearBins slots = p.leafScore t slots := by
  have hscale : p.scale = .raw := by rw [scale, hraw, Coder.scale]
  have hcleared : t.clearBins.clearBins = t.clearBins := rfl
  have hleaf : t.clearBins.leafFor p.scale slots = t.leafFor p.scale slots := by
    rw [hscale]
    exact Tree.leafFor_raw_recoded hcleared slots
  exact congrArg (· >>= t.leafValue) hleaf

theorem addTrees_uncoded (slots : Array Slot) (scores : Array Binary32)
    (trees : List (Tree × UInt32)) :
    p.uncoded.addTrees slots scores (trees.map (Prod.map Tree.clearBins id)) =
      p.addTrees slots scores trees := by
  induction trees generalizing scores with
  | nil => rfl
  | cons tg trees ih =>
    obtain ⟨t, group⟩ := tg
    simp only [List.map_cons, Prod.map_apply, id, addTrees, leafScore_uncoded hraw, ih]

theorem scoreSlots_uncoded (slots : Array Slot) (output : Array Binary32) :
    p.uncoded.scoreSlots slots output = p.scoreSlots slots output := by
  have htrees := addTrees_uncoded hraw slots p.forest.baseScore p.forest.treesWithGroups
  rw [← treesWithGroups_clearBins] at htrees
  rw [scoreSlots, scoreSlots, ← htrees]
  rfl

theorem predictRow_uncoded (row : Array Binary32) :
    p.uncoded.predictRow row = p.predictRow row := by
  have hbind : p.uncoded.bindRow row p.uncoded.newSlots = p.bindRow row p.newSlots := rfl
  have houtput : p.uncoded.newOutput = p.newOutput := rfl
  simp only [predictRow, predictRowInto, hbind, houtput, scoreSlots_uncoded hraw]

theorem predictSparseRow_uncoded (indices : List UInt32) (values : List Binary32) :
    p.uncoded.predictSparseRow indices values = p.predictSparseRow indices values := by
  have hbind : p.uncoded.bindSparseRow indices values p.uncoded.newSlots =
      p.bindSparseRow indices values p.newSlots := rfl
  have houtput : p.uncoded.newOutput = p.newOutput := rfl
  simp only [predictSparseRow, hbind, houtput, scoreSlots_uncoded hraw]

theorem addTreeToRows_uncoded (t : Tree) (group : Nat) (arena : Arena) (buffer : Span) (k : Nat)
    (scores : Matrix) (rows : List Nat) :
    p.uncoded.addTreeToRows t.clearBins group arena buffer k scores rows =
      p.addTreeToRows t group arena buffer k scores rows := by
  induction rows generalizing k scores with
  | nil => rfl
  | cons i rows ih =>
    simp only [addTreeToRows, leafScore_uncoded hraw, ih]
    rfl

theorem addTreesToRows_uncoded (arena : Arena) (buffer : Span) (rows : List Nat) (scores : Matrix)
    (trees : List (Tree × UInt32)) :
    p.uncoded.addTreesToRows arena buffer rows scores (trees.map (Prod.map Tree.clearBins id)) =
      p.addTreesToRows arena buffer rows scores trees := by
  induction trees generalizing scores with
  | nil => rfl
  | cons tg trees ih =>
    obtain ⟨t, group⟩ := tg
    simp only [List.map_cons, Prod.map_apply, id, addTreesToRows, addTreeToRows_uncoded hraw, ih]

theorem scoreBlock_uncoded (features : Matrix) (buffer block : Span) (w : Workspace) :
    p.uncoded.scoreBlock features buffer block w = p.scoreBlock features buffer block w := by
  have htrees : p.uncoded.forest.treesWithGroups =
      p.forest.treesWithGroups.map (Prod.map Tree.clearBins id) := treesWithGroups_clearBins _
  simp only [scoreBlock, bindRows_uncoded, htrees, addTreesToRows_uncoded hraw]
  rfl

theorem scoreBlocks_uncoded (features : Matrix) (buffer : Span) (w : Workspace)
    (blocks : List Span) :
    p.uncoded.scoreBlocks features buffer w blocks = p.scoreBlocks features buffer w blocks := by
  induction blocks generalizing w with
  | nil => rfl
  | cons block blocks ih => simp only [scoreBlocks, scoreBlock_uncoded hraw, ih]

theorem scoreShards_uncoded (features : Matrix) (shards : Array (Span × Span)) (w : Workspace)
    (schedule : List Nat) :
    p.uncoded.scoreShards features shards w schedule =
      p.scoreShards features shards w schedule := by
  induction schedule generalizing w with
  | nil => rfl
  | cons k schedule ih =>
    simp only [scoreShards, scoreBlocks_uncoded hraw, ih]
    rfl

theorem predictInto_uncoded (features : Matrix) (available : Nat) (schedule : Schedule)
    (output : Matrix) :
    p.uncoded.predictInto features available schedule output =
      p.predictInto features available schedule output := by
  simp only [predictInto, scoreShards_uncoded hraw]
  rfl

end Raw

/-- Two predictors that do the same with every input, one of the wrong shape included. -/
structure Same (p q : Predictor) : Prop where
  row : ∀ row, p.predictRow row = q.predictRow row
  sparseRow : ∀ indices values,
    p.predictSparseRow indices values = q.predictSparseRow indices values
  batch : ∀ features available schedule output,
    p.predictInto features available schedule output =
      q.predictInto features available schedule output

/-- Raw predictors on forests that differ in codes and tables only are the same. -/
theorem same_raw {f g : Forest} (h : g.clearBins = f.clearBins) (s : Settings) :
    Same ⟨f, .raw, s⟩ ⟨g, .raw, s⟩ := by
  have huncoded : uncoded ⟨g, .raw, s⟩ = uncoded ⟨f, .raw, s⟩ := by rw [uncoded, uncoded, h]
  refine ⟨fun row => ?_, fun indices values => ?_, fun features available schedule output => ?_⟩
  · rw [← predictRow_uncoded rfl, ← huncoded, predictRow_uncoded rfl]
  · rw [← predictSparseRow_uncoded rfl, ← huncoded, predictSparseRow_uncoded rfl]
  · rw [← predictInto_uncoded rfl, ← huncoded, predictInto_uncoded rfl]

end TreeEnsemble.Predictor
