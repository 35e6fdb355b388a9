import TreeEnsemble.Binary32.Arithmetic
import TreeEnsemble.Predictor.Basic

/-!
Prediction of single rows: bind the row into slots, then add the leaf values of all trees to the
base scores, tree by tree. Slots and scores can be buffers of the caller, which a refused row
leaves as they were.
-/

namespace TreeEnsemble.Predictor

def policy (p : Predictor) : MissingPolicy := p.settings.policy

/-- Binds a dense row. The first part of the result is the slots afterwards. -/
def bindRow (p : Predictor) (row : Array Binary32) (slots : Array Slot) :
    Except Fault (Array Slot × Except PredictorError Unit) := do
  if row.size ≠ p.width then pure (slots, .error (.featureCount p.width row.size))
  else
    let (slots, result) ← bindDense p.coder p.policy row slots
    pure (slots, result.mapError .bind)

/-- Binds a sparse row. The first part of the result is the slots afterwards. -/
def bindSparseRow (p : Predictor) (indices : List UInt32) (values : List Binary32)
    (slots : Array Slot) : Except Fault (Array Slot × Except PredictorError Unit) := do
  if slots.size ≠ p.width then pure (slots, .error (.featureCount p.width slots.size))
  else
    let (slots, result) ← bindSparse p.coder p.policy indices values slots
    pure (slots, result.mapError .bind)

def addScore (scores : Array Binary32) (group : Nat) (x : Binary32) :
    Except Fault (Array Binary32) := do
  let old ← fetch scores group
  store scores group (old + x)

/-- The value of the leaf that bound slots reach in a tree. -/
def leafScore (p : Predictor) (t : Tree) (slots : Array Slot) : Except Fault Binary32 := do
  let leaf ← t.leafFor p.scale slots
  t.leafValue leaf

def addTrees (p : Predictor) (slots : Array Slot) (scores : Array Binary32) :
    List (Tree × UInt32) → Except Fault (Array Binary32)
  | [] => .ok scores
  | (t, group) :: rest => do
    let x ← p.leafScore t slots
    let scores ← addScore scores group.toNat x
    p.addTrees slots scores rest

/-- The scores for bound slots, written over an output of one number per group. -/
def scoreSlots (p : Predictor) (slots : Array Slot) (output : Array Binary32) :
    Except Fault (Array Binary32) :=
  if output.size = p.groupCount then
    p.addTrees slots p.forest.baseScore p.forest.treesWithGroups
  else .error .outputLength

structure Buffers where
  slots : Array Slot
  output : Array Binary32
  deriving DecidableEq

/-- Predicts a row in the buffers of the caller. The first part of the result is the buffers
afterwards. -/
def predictRowInto (p : Predictor) (row : Array Binary32) (b : Buffers) :
    Except Fault (Buffers × Except PredictorError Unit) := do
  match ← p.bindRow row b.slots with
  | (slots, .error e) => pure (⟨slots, b.output⟩, .error e)
  | (slots, .ok ()) => do
    let output ← p.scoreSlots slots b.output
    pure (⟨slots, output⟩, .ok ())

def newOutput (p : Predictor) : Array Binary32 := Array.replicate p.groupCount .zero

def predictRow (p : Predictor) (row : Array Binary32) :
    Except Fault (Except PredictorError (Array Binary32)) := do
  match ← p.predictRowInto row ⟨p.newSlots, p.newOutput⟩ with
  | (b, .ok ()) => pure (.ok b.output)
  | (_, .error e) => pure (.error e)

def predictSparseRow (p : Predictor) (indices : List UInt32) (values : List Binary32) :
    Except Fault (Except PredictorError (Array Binary32)) := do
  match ← p.bindSparseRow indices values p.newSlots with
  | (slots, .ok ()) => do
    let output ← p.scoreSlots slots p.newOutput
    pure (.ok output)
  | (_, .error e) => pure (.error e)

end TreeEnsemble.Predictor
