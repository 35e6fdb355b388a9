import TreeEnsemble.Threshold.Table

/-!
The two ways to a threshold table: from any lists of thresholds, which are sorted and cleared of
duplicates, and from the parts of a stored table, which are checked and kept as they are.
-/

namespace TreeEnsemble

/-- Drops each number equal to the one kept before it. -/
def dropRepeats : List Binary32 → List Binary32
  | [] => []
  | [x] => [x]
  | x :: y :: rest => if y.eqv x then dropRepeats (x :: rest) else x :: dropRepeats (y :: rest)
termination_by xs => xs.length

/-- The thresholds of a list in increasing order, each once. -/
def sortThresholds (xs : List Binary32) : List Binary32 :=
  dropRepeats (xs.mergeSort Binary32.totalLe)

/-- The pairs of neighbours in a list. -/
def neighbours {α : Type} (xs : List α) : List (α × α) := xs.zip xs.tail

namespace ThresholdTable

/-- Adds a feature at the end of a table, given its sorted thresholds. -/
def addFeature (t : ThresholdTable) (xs : List Binary32) : ThresholdTable :=
  let thresholds := t.thresholds ++ xs.toArray
  ⟨thresholds, t.offsets.push (UInt32.ofNat thresholds.size)⟩

/-- Adds the features of the lists, which are numbered from `feature` on. -/
def addFeatures (t : ThresholdTable) (feature : Nat) :
    List (List Binary32) → Except QuantizeError ThresholdTable
  | [] => .ok t
  | xs :: rest =>
    if xs.any Binary32.isNaN then .error (.nanFeatureThreshold feature)
    else (t.addFeature (sortThresholds xs)).addFeatures (feature + 1) rest

/-- The table of one list of thresholds per feature. -/
def ofLists (perFeature : List (List Binary32)) : Except QuantizeError ThresholdTable :=
  addFeatures ⟨#[], #[0]⟩ 0 perFeature

/-- Checks that a feature's thresholds are numbers in strictly increasing order. -/
def checkFeature (t : ThresholdTable) (feature : Nat) : Attempt QuantizeError Unit := do
  let xs ← t.thresholdsOf feature
  if xs.any Binary32.isNaN then fail (.nanFeatureThreshold feature)
  else if (neighbours xs).any fun p => p.2.le p.1 then fail (.malformedTable .unordered)
  else pure ()

/-- Checks that the offsets cut the thresholds into one run per feature. -/
def checkOffsets (t : ThresholdTable) : Attempt QuantizeError Unit := do
  if (← fetch t.offsets 0) ≠ 0 then fail (.malformedTable .firstOffset)
  else if (neighbours t.offsets.toList).any fun p => decide (p.2 < p.1) then
    fail (.malformedTable .decreasingOffsets)
  else if (← fetch t.offsets (t.offsets.size - 1)).toNat ≠ t.thresholds.size then
    fail (.malformedTable .lastOffset)
  else pure ()

/-- The table of stored parts. -/
def ofParts (thresholds : Array Binary32) (offsets : Array UInt32) :
    Attempt QuantizeError ThresholdTable := do
  let t : ThresholdTable := ⟨thresholds, offsets⟩
  if offsets.isEmpty then
    if thresholds.isEmpty then pure empty else fail (.malformedTable .missingOffsets)
  else
    t.checkOffsets
    (List.range t.featureCount).forM t.checkFeature
    pure t

end ThresholdTable

end TreeEnsemble
