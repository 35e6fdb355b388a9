import TreeEnsemble.Binary32.Hex
import TreeEnsemble.Comparison
import TreeEnsemble.Threshold.Build
import TreeEnsemble.Tree.Validation

/-!
Model documents, and readers of their parts. A document is a value of a general data format. A
number of 32 bits is written as the text of its bit pattern, and a number that is infinite or NaN
as null, which no reader of numbers accepts.
-/

namespace TreeEnsemble

inductive Document where
  | null
  | boolean (b : Bool)
  | integer (n : Int)
  /-- A number that is not written as an integer. -/
  | fraction
  | text (s : String)
  | list (items : List Document)
  | record (fields : List (String × Document))

inductive LoadError where
  | wrongKind
  | outOfRange
  | unknownVariant (name : String)
  | missingField (name : String)
  | rejected (error : QuantizeError)
  deriving DecidableEq

def LoadError.message : LoadError → Option String
  | .wrongKind => none
  | .outOfRange => none
  | .unknownVariant name => if name.isEmpty then none else some name
  | .missingField name => some name
  | .rejected error => some error.message

/-- A reader of one kind of value. -/
abbrev Reader (α : Type) := Document → Attempt LoadError α

namespace Reader

/-- Reads an integer from `lo` up to, but without, `hi`. Integers beyond 64 bits count as numbers
of another kind. -/
def integer (lo hi : Int) : Reader Int
  | .integer n =>
    if lo ≤ n ∧ n < hi then pure n
    else if -0x8000000000000000 ≤ n ∧ n < 0x10000000000000000 then fail .outOfRange
    else fail .wrongKind
  | _ => fail .wrongKind

def word32 : Reader UInt32 := fun d => do
  let n ← integer 0 0x100000000 d
  pure (UInt32.ofNat n.toNat)

def word64 : Reader UInt64 := fun d => do
  let n ← integer 0 0x10000000000000000 d
  pure (UInt64.ofNat n.toNat)

def int32 : Reader Int32 := fun d => do
  let n ← integer (-0x80000000) 0x80000000 d
  pure (Int32.ofInt n)

def boolean : Reader Bool
  | .boolean b => pure b
  | _ => fail .wrongKind

def number : Reader Binary32
  | .text s =>
    match Binary32.ofHex? s with
    | some x => pure x
    | none => fail .wrongKind
  | _ => fail .wrongKind

def comparison : Reader Comparison
  | .text s =>
    match Comparison.ofName? s with
    | some c => pure c
    | none => fail (.unknownVariant s)
  | _ => fail .wrongKind

def list {α : Type} (item : Reader α) : Reader (List α)
  | .list items => items.mapM item
  | _ => fail .wrongKind

def array {α : Type} (item : Reader α) : Reader (Array α) := fun d => do
  let items ← list item d
  pure items.toArray

/-- Reads null as nothing. -/
def option {α : Type} (item : Reader α) : Reader (Option α)
  | .null => pure none
  | d => do
    let x ← item d
    pure (some x)

/-- Reads a value only to see that it can be read. -/
def check {α : Type} (r : Reader α) : Reader Unit := fun d => do
  let _ ← r d
  pure ()

end Reader

/-- The fields of a record whose known fields can all be read. Fields are read in the order of
their names, so that the first defect in that order is reported; unknown fields are passed over. -/
def checkedFields (known : List (String × Reader Unit)) : Reader (List (String × Document))
  | .record fields => do
    (fields.mergeSort fun a b => decide (a.1 ≤ b.1)).forM fun f =>
      match known.lookup f.1 with
      | some r => r f.2
      | none => pure ()
    pure fields
  | _ => fail .wrongKind

/-- A field that must be there. -/
def required {α : Type} (fields : List (String × Document)) (name : String) (r : Reader α) :
    Attempt LoadError α :=
  match fields.lookup name with
  | some d => r d
  | none => fail (.missingField name)

/-- A field that may be absent. -/
def optional {α : Type} (fields : List (String × Document)) (name : String) (r : Reader α)
    (absent : α) : Attempt LoadError α :=
  match fields.lookup name with
  | some d => r d
  | none => pure absent

end TreeEnsemble
