import TreeEnsemble.Binding
import TreeEnsemble.Forest.Validation
import TreeEnsemble.Tree.Route

/-!
A predictor is a forest that passed its checks, with the way its rows are bound. A predictor on raw
values serves every valid forest; one on codes needs a quantized forest.
-/

namespace TreeEnsemble

/-- How a predictor works. -/
structure Settings where
  policy : MissingPolicy := .nanIsMissing
  /-- The number of rows bound and walked together in a batch. -/
  blockSize : Nat := 64
  /-- The number of threads; 0 uses those that are there, 1 runs in sequence. -/
  threads : Nat := 0
  deriving DecidableEq

inductive SettingsError where
  | emptyBlocks
  deriving DecidableEq

def SettingsError.message : SettingsError → String
  | .emptyBlocks => "block_size must be at least 1"

/-- Refuses blocks of no rows. -/
def Settings.check (s : Settings) : Except SettingsError Unit :=
  if s.blockSize = 0 then .error .emptyBlocks else .ok ()

inductive PredictorError where
  | notQuantized
  | settings (error : SettingsError)
  | forest (error : ForestError)
  | featureCount (expected got : Nat)
  | bind (error : BindError)
  deriving DecidableEq

namespace PredictorError

def message : PredictorError → String
  | notQuantized => "forest is not quantized; call Forest::quantize first"
  | settings error => "invalid predictor config: " ++ error.message
  | forest error => "invalid forest: " ++ error.message
  | featureCount expected got => s!"input has {got} features, forest expects {expected}"
  | bind error => error.message

def causes : PredictorError → List String
  | settings error => [error.message]
  | forest error => error.message :: error.causes
  | _ => []

end PredictorError

/-- The scale on which slots written by a coder are to be read. -/
def Coder.scale : Coder → Scale
  | .raw => .raw
  | .binned _ => .binned

structure Predictor where
  forest : Forest
  coder : Coder
  settings : Settings
  deriving DecidableEq

namespace Predictor

/-- The coder for a forest on a scale. -/
def coderFor (f : Forest) : Scale → Attempt PredictorError Coder
  | .raw => pure .raw
  | .binned =>
    match f.table with
    | some table => if f.isQuantized then pure (.binned table) else fail .notQuantized
    | none => fail .notQuantized

/-- The predictor for a forest, after all checks. -/
def create (scale : Scale) (f : Forest) (s : Settings) : Attempt PredictorError Predictor := do
  match s.check with
  | .error e => fail (.settings e)
  | .ok () =>
    f.validate.mapErrors .forest
    let coder ← coderFor f scale
    pure ⟨f, coder, s⟩

def scale (p : Predictor) : Scale := p.coder.scale

/-- The number of output groups. -/
def groupCount (p : Predictor) : Nat := p.forest.groupCount.toNat

/-- The number of features of a row. -/
def width (p : Predictor) : Nat := p.forest.width

def newSlots (p : Predictor) : Array Slot := Array.replicate p.width .unwritten

end Predictor

end TreeEnsemble
