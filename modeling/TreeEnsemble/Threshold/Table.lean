import TreeEnsemble.Binary32.Decimal
import TreeEnsemble.Span
import TreeEnsemble.Threshold.Search

/-!
A threshold table holds, for each feature, the increasing thresholds that splits compare it with.
The thresholds of all features stand in one array, and `offsets` says where each feature begins.
Both a threshold and a value are coded as bin numbers: the threshold at place k is 2k, a value
between the thresholds at places k - 1 and k is 2k - 1, and a value equal to a threshold has its
code. Coding keeps the order of values and thresholds, so a split can compare codes instead.
-/

namespace TreeEnsemble

/-- What is wrong with the parts of a table. -/
inductive TableFlaw where
  | missingOffsets
  | firstOffset
  | decreasingOffsets
  | lastOffset
  | unordered
  deriving DecidableEq

def TableFlaw.reason : TableFlaw → String
  | .missingOffsets => "thresholds without offsets"
  | .firstOffset => "first offset must be 0"
  | .decreasingOffsets => "offsets must not decrease"
  | .lastOffset => "last offset must equal the number of thresholds"
  | .unordered => "thresholds must be strictly increasing per feature"

/-- Errors in making a table, or in coding a forest with one. -/
inductive QuantizeError where
  | nanThreshold (tree node : Nat)
  | nanFeatureThreshold (feature : Nat)
  | featureOutOfRange (tree node feature features : Nat)
  | thresholdNotInTable (feature : Nat) (threshold : Binary32)
  | tableTooSmall (covered needed : Nat)
  | malformedTable (flaw : TableFlaw)
  deriving DecidableEq

def QuantizeError.message : QuantizeError → String
  | .nanThreshold tree node => s!"NaN split threshold at tree {tree} node {node}"
  | .nanFeatureThreshold feature => s!"NaN threshold for feature {feature}"
  | .featureOutOfRange tree node feature features =>
    s!"tree {tree} node {node} splits on feature {feature}, forest has {features} features"
  | .thresholdNotInTable feature threshold =>
    let text := threshold.toDecimal Binary32.plainLayout
    s!"threshold {text} for feature {feature} is not in the table"
  | .tableTooSmall covered needed => s!"table covers {covered} features, need {needed}"
  | .malformedTable flaw => "malformed threshold table: " ++ flaw.reason

structure ThresholdTable where
  thresholds : Array Binary32
  offsets : Array UInt32
  deriving DecidableEq

namespace ThresholdTable

/-- The table of no features, without offsets. -/
def empty : ThresholdTable := ⟨#[], #[]⟩

def featureCount (t : ThresholdTable) : Nat := t.offsets.size - 1

def thresholdCount (t : ThresholdTable) : Nat := t.thresholds.size

/-- Equality of tables, with thresholds compared as numbers. -/
def eqv (s t : ThresholdTable) : Bool :=
  s.thresholds.isEqv t.thresholds Binary32.eqv && s.offsets == t.offsets

/-- The place of a feature's thresholds; a feature outside the table has none. -/
def region (t : ThresholdTable) (feature : Nat) : Except Fault Span :=
  match t.offsets[feature]?, t.offsets[feature + 1]? with
  | some first, some last =>
    if first ≤ last ∧ last.toNat ≤ t.thresholds.size then .ok ⟨first.toNat, last.toNat⟩
    else .error .outOfBounds
  | _, _ => .ok ⟨0, 0⟩

/-- The thresholds of a feature, in increasing order. -/
def thresholdsOf (t : ThresholdTable) (feature : Nat) : Except Fault (List Binary32) := do
  let r ← t.region feature
  pure (r.read t.thresholds).toList

/-- How many thresholds of a feature lie below a value, and whether the next one equals it. -/
def locate (t : ThresholdTable) (feature : Nat) (x : Binary32) : Except Fault (Nat × Bool) := do
  let r ← t.region feature
  let p := partitionPoint t.thresholds (fun y => y.lt x) r.start r.stop
  pure (p - r.start, decide (p < r.stop) && t.thresholds[p]?.any fun y => y.eqv x)

/-- The code of a threshold, if the feature has it. -/
def thresholdBin (t : ThresholdTable) (feature : Nat) (x : Binary32) :
    Except Fault (Option Int32) := do
  let (below, found) ← t.locate feature x
  pure (if found then some (Int32.ofInt (2 * below)) else none)

/-- The code of a value. A NaN has no threshold below it. -/
def valueBin (t : ThresholdTable) (feature : Nat) (x : Binary32) : Except Fault Int32 := do
  let (below, found) ← t.locate feature x
  pure (Int32.ofInt (if found then 2 * below else 2 * below - 1))

end ThresholdTable

end TreeEnsemble
