import TreeEnsemble.Predictor.Row

/-!
Calls on the same buffers. A caller binds rows into one buffer of slots and has them scored into one
output, call after call.
-/

namespace TreeEnsemble.Predictor

inductive Call where
  | bindRow (row : Array Binary32)
  | bindSparseRow (indices : List UInt32) (values : List Binary32)
  | scoreSlots
  | predictRow (row : Array Binary32)
  deriving DecidableEq

/-- Makes a call. The first part of the result is the buffers afterwards. -/
def call (p : Predictor) (b : Buffers) : Call → Except Fault (Buffers × Except PredictorError Unit)
  | .bindRow row => do
    let (slots, result) ← p.bindRow row b.slots
    pure (⟨slots, b.output⟩, result)
  | .bindSparseRow indices values => do
    let (slots, result) ← p.bindSparseRow indices values b.slots
    pure (⟨slots, b.output⟩, result)
  | .scoreSlots => do
    let output ← p.scoreSlots b.slots b.output
    pure (⟨b.slots, output⟩, .ok ())
  | .predictRow row => p.predictRowInto row b

/-- Makes calls one after the other, and lists their results beside the buffers. -/
def run (p : Predictor) (b : Buffers) :
    List Call → Except Fault (Buffers × List (Except PredictorError Unit))
  | [] => .ok (b, [])
  | c :: rest => do
    let (b, result) ← p.call b c
    let (b, results) ← p.run b rest
    pure (b, result :: results)

end TreeEnsemble.Predictor
