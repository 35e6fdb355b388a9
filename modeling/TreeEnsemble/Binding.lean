import TreeEnsemble.Slot
import TreeEnsemble.Threshold.Table

/-!
Binding writes a row of values into slots, either as numbers or as codes of a threshold table. A
row is dense, with one value per slot, or sparse, a list of positions with values; positions not
listed are missing. A row that is refused changes nothing.
-/

namespace TreeEnsemble

/-- What becomes of NaN. -/
inductive MissingPolicy where
  /-- A NaN is a missing value. -/
  | nanIsMissing
  /-- A NaN is a value like others; it fails every comparison, and its code is below all. -/
  | preserve
  deriving DecidableEq

namespace MissingPolicy

def name : MissingPolicy → String
  | nanIsMissing => "NanAsMissing"
  | preserve => "Preserve"

def hides : MissingPolicy → Binary32 → Bool
  | nanIsMissing, x => x.isNaN
  | preserve, _ => false

end MissingPolicy

inductive BindError where
  | featureCount (expected got : Nat)
  | featureOutOfRange (index features : Nat)
  | sparseLengths (indices values : Nat)
  | tableTooSmall (covered needed : Nat)
  deriving DecidableEq

def BindError.message : BindError → String
  | .featureCount expected got => s!"row has {got} features, expected {expected}"
  | .featureOutOfRange index features =>
    s!"feature index {index} out of range for {features} features"
  | .sparseLengths indices values => s!"sparse row has {indices} indices but {values} values"
  | .tableTooSmall covered needed =>
    s!"threshold table covers {covered} features, row has {needed}"

inductive Coder where
  | raw
  | binned (table : ThresholdTable)
  deriving DecidableEq

namespace Coder

/-- What one value of a feature becomes. -/
def slot (c : Coder) (policy : MissingPolicy) (feature : Nat) (x : Binary32) :
    Except Fault Slot :=
  if policy.hides x then .ok .missing
  else
    match c with
    | raw => .ok (.ofFloat x)
    | binned table => do
      let bin ← table.valueBin feature x
      pure (.ofBin bin)

/-- Refuses rows wider than the table. -/
def checkWidth (c : Coder) (width : Nat) : Attempt BindError Unit :=
  match c with
  | raw => pure ()
  | binned table =>
    if table.featureCount < width then fail (.tableTooSmall table.featureCount width) else pure ()

/-- The slots of values of consecutive features. -/
def encode (c : Coder) (policy : MissingPolicy) (feature : Nat) :
    List Binary32 → Except Fault (List Slot)
  | [] => .ok []
  | x :: xs => do
    let s ← c.slot policy feature x
    let rest ← c.encode policy (feature + 1) xs
    pure (s :: rest)

/-- Writes listed values over slots, from left to right. -/
def scatter (c : Coder) (policy : MissingPolicy) (slots : Array Slot) :
    List (UInt32 × Binary32) → Except Fault (Array Slot)
  | [] => .ok slots
  | (index, x) :: rest => do
    let s ← c.slot policy index.toNat x
    let slots ← store slots index.toNat s
    c.scatter policy slots rest

end Coder

def resetMissing (slots : Array Slot) : Array Slot := slots.map Slot.setMissing

/-- The slots of a dense row, for `width` slots. -/
def denseSlots (c : Coder) (policy : MissingPolicy) (row : Array Binary32) (width : Nat) :
    Attempt BindError (Array Slot) := do
  if row.size ≠ width then fail (.featureCount width row.size)
  else
    c.checkWidth width
    let slots ← c.encode policy 0 row.toList
    pure slots.toArray

/-- Refuses sparse rows whose lists differ in length or that list a position beyond `width`. -/
def checkSparse (indices : List UInt32) (values : List Binary32) (width : Nat) :
    Attempt BindError Unit :=
  if indices.length ≠ values.length then fail (.sparseLengths indices.length values.length)
  else
    match indices.find? fun i => decide (width ≤ i.toNat) with
    | some i => fail (.featureOutOfRange i.toNat width)
    | none => pure ()

/-- The slots of a sparse row, written over the given ones. -/
def sparseSlots (c : Coder) (policy : MissingPolicy) (indices : List UInt32)
    (values : List Binary32) (slots : Array Slot) : Attempt BindError (Array Slot) := do
  checkSparse indices values slots.size
  c.checkWidth slots.size
  c.scatter policy (resetMissing slots) (indices.zip values)

/-- Binds a dense row. The first part of the result is the slots afterwards. -/
def bindDense (c : Coder) (policy : MissingPolicy) (row : Array Binary32) (slots : Array Slot) :
    Except Fault (Array Slot × Except BindError Unit) :=
  (denseSlots c policy row slots.size).update slots

/-- Binds a sparse row. The first part of the result is the slots afterwards. -/
def bindSparse (c : Coder) (policy : MissingPolicy) (indices : List UInt32)
    (values : List Binary32) (slots : Array Slot) :
    Except Fault (Array Slot × Except BindError Unit) :=
  (sparseSlots c policy indices values slots).update slots

end TreeEnsemble
