import TreeEnsemble.Arena
import TreeEnsemble.Matrix
import TreeEnsemble.Predictor.Row
import TreeEnsemble.Predictor.Shards
import TreeEnsemble.Predictor.Workers

/-!
Prediction of a batch of rows. Every worker takes one shard of the rows and has slots of its own for
one block; it binds a block of rows, adds the trees one after the other to the scores of all rows of
the block, and goes on with the next block in the same slots. The shards may run in any order.
-/

namespace TreeEnsemble.Predictor

/-- What the workers write: the slots, and the scores of all groups for all rows. -/
structure Workspace where
  arena : Arena
  scores : Matrix

/-- Binds rows of a batch into consecutive rows of a buffer, from row `k` on. -/
def bindRows (p : Predictor) (features : Matrix) (buffer : Span) (k : Nat) (arena : Arena) :
    List Nat → Except Fault (Arena × Except PredictorError Unit)
  | [] => .ok (arena, .ok ())
  | i :: rest => do
    let place ← buffer.slice (k * p.width) ((k + 1) * p.width)
    let row ← features.row i
    let (slots, result) ← bindDense p.coder p.policy row (arena.read place)
    let arena := arena.write place slots
    match result with
    | .ok () => p.bindRows features buffer (k + 1) arena rest
    | .error e => pure (arena, .error (.bind e))

/-- Adds one tree to the scores of rows, which are bound in a buffer from row `k` on. -/
def addTreeToRows (p : Predictor) (t : Tree) (group : Nat) (arena : Arena) (buffer : Span) (k : Nat)
    (scores : Matrix) : List Nat → Except Fault Matrix
  | [] => .ok scores
  | i :: rest => do
    let place ← buffer.slice (k * p.width) ((k + 1) * p.width)
    let x ← p.leafScore t (arena.read place)
    let scores ← scores.addAt group i x
    p.addTreeToRows t group arena buffer (k + 1) scores rest

/-- Adds trees to the scores of rows, one tree after the other. -/
def addTreesToRows (p : Predictor) (arena : Arena) (buffer : Span) (rows : List Nat)
    (scores : Matrix) : List (Tree × UInt32) → Except Fault Matrix
  | [] => .ok scores
  | (t, group) :: rest => do
    let scores ← p.addTreeToRows t group.toNat arena buffer 0 scores rows
    p.addTreesToRows arena buffer rows scores rest

/-- Scores one block of rows in the buffer of a worker. -/
def scoreBlock (p : Predictor) (features : Matrix) (buffer block : Span) (w : Workspace) :
    Except Fault (Workspace × Except PredictorError Unit) := do
  let used ← buffer.slice 0 (block.size * p.width)
  let (arena, result) ← p.bindRows features used 0 w.arena block.positions
  match result with
  | .error e => pure (⟨arena, w.scores⟩, .error e)
  | .ok () => do
    let scores ← p.addTreesToRows arena used block.positions w.scores p.forest.treesWithGroups
    pure (⟨arena, scores⟩, .ok ())

def scoreBlocks (p : Predictor) (features : Matrix) (buffer : Span) (w : Workspace) :
    List Span → Except Fault (Workspace × Except PredictorError Unit)
  | [] => .ok (w, .ok ())
  | block :: rest => do
    match ← p.scoreBlock features buffer block w with
    | (w, .ok ()) => p.scoreBlocks features buffer w rest
    | (w, .error e) => pure (w, .error e)

/-- Scores the shards with the listed numbers, in that order. Every shard runs, whatever became of
the others; the results are listed beside the workspace. -/
def scoreShards (p : Predictor) (features : Matrix) (shards : Array (Span × Span)) (w : Workspace) :
    List Nat → Except Fault (Workspace × List (Nat × Except PredictorError Unit))
  | [] => .ok (w, [])
  | k :: rest => do
    let (shard, buffer) ← fetch shards k
    let (w, result) ← p.scoreBlocks features buffer w (shard.chunks p.settings.blockSize)
    let (w, results) ← p.scoreShards features shards w rest
    pure (w, (k, result) :: results)

/-- The first error by the number of the shard. -/
def firstError (shards : Nat) (results : List (Nat × Except PredictorError Unit)) :
    Except PredictorError Unit :=
  ((List.range shards).filterMap fun k => results.lookup k).forM id

/-- The order in which a number of shards run. -/
abbrev Schedule := Nat → List Nat

/-- Predicts a batch into a matrix of one row per group and one column per row of the batch. The
first part of the result is the matrix afterwards. -/
def predictInto (p : Predictor) (features : Matrix) (available : Nat) (schedule : Schedule)
    (output : Matrix) : Except Fault (Matrix × Except PredictorError Unit) := do
  if features.width ≠ p.width then
    pure (output, .error (.featureCount p.width features.width))
  else if output.height ≠ p.groupCount ∨ output.width ≠ features.height then
    .error .outputShape
  else if features.height = 0 then pure (output, .ok ())
  else
    let plan := ShardPlan.of features.height p.settings.blockSize available
    let arena := Arena.new plan.workers p.settings.blockSize p.width
    let buffers ← arena.workerSpans
    let shards := ((plan.shards features.height).zip buffers).toArray
    let start : Workspace := ⟨arena, output.fillRows p.forest.baseScore⟩
    let (w, results) ← p.scoreShards features shards start (schedule shards.size)
    pure (w.scores, firstError shards.size results)

/-- Predicts a batch with the threads of the settings, on a machine with a pool of a given size. -/
def predict (p : Predictor) (machine : Nat) (features : Matrix) :
    Except Fault (Except PredictorError Matrix) := do
  let output := Matrix.filled p.groupCount features.height .zero
  let run := withThreads machine p.settings.threads fun parallelism pool =>
    p.predictInto features (parallelism.workers pool) List.range output
  match ← run with
  | (scores, .ok ()) => pure (.ok scores)
  | (_, .error e) => pure (.error e)

end TreeEnsemble.Predictor
