import TreeEnsemble.Binary32.Decimal

/-!
A slot holds the value of one feature of one instance while trees are walked: a number, a bin
number, or nothing. Numbers and bins share one 32-bit payload, and a mode says how it was written.
The payload of a slot without content is 0, so that equal slots have equal contents.
-/

namespace TreeEnsemble

inductive SlotMode where
  | unwritten
  | float
  | bin
  | missing
  deriving DecidableEq

namespace SlotMode

def name : SlotMode → String
  | unwritten => "Uninitialized"
  | float => "Float"
  | bin => "Bin"
  | missing => "Missing"

def code : SlotMode → Nat
  | unwritten => 0
  | float => 1
  | bin => 2
  | missing => 3

end SlotMode

/-- What a slot was last given. -/
inductive SlotValue where
  | unwritten
  | float (value : Binary32)
  | bin (number : Int32)
  | missing
  deriving DecidableEq

/-- Equality of contents, with numbers compared as numbers. -/
def SlotValue.eqv : SlotValue → SlotValue → Bool
  | .unwritten, .unwritten => true
  | .float x, .float y => x.eqv y
  | .bin m, .bin n => m == n
  | .missing, .missing => true
  | _, _ => false

structure Slot where
  payload : UInt32
  mode : SlotMode
  deriving DecidableEq

namespace Slot

/-- A slot that was never written. It counts as present and reads as zero. -/
def unwritten : Slot := ⟨0, .unwritten⟩

def ofFloat (x : Binary32) : Slot := ⟨x.bits, .float⟩

def ofBin (n : Int32) : Slot := ⟨n.toUInt32, .bin⟩

def missing : Slot := ⟨0, .missing⟩

def setFloat (s : Slot) (x : Binary32) : Slot := { s with payload := x.bits, mode := .float }

def setBin (s : Slot) (n : Int32) : Slot := { s with payload := n.toUInt32, mode := .bin }

def setMissing (s : Slot) : Slot := { s with payload := 0, mode := .missing }

def isMissing (s : Slot) : Bool := s.mode == .missing

/-- The payload read as a number, whatever was written. -/
def asFloat (s : Slot) : Binary32 := ⟨s.payload⟩

/-- The payload read as a bin, whatever was written. -/
def asBin (s : Slot) : Int32 := s.payload.toInt32

def float? (s : Slot) : Option Binary32 := if s.mode = .float then some s.asFloat else none

def bin? (s : Slot) : Option Int32 := if s.mode = .bin then some s.asBin else none

def value (s : Slot) : SlotValue :=
  match s.mode with
  | .unwritten => .unwritten
  | .float => .float s.asFloat
  | .bin => .bin s.asBin
  | .missing => .missing

def ofValue : SlotValue → Slot
  | .unwritten => unwritten
  | .float x => ofFloat x
  | .bin n => ofBin n
  | .missing => missing

def describe (s : Slot) : String :=
  let content := match s.value with
    | .unwritten => "uninitialized"
    | .float x => "f=" ++ x.toDecimal Binary32.explicitLayout
    | .bin n => "q=" ++ toString n.toInt
    | .missing => "missing"
  "FeatureSlot(" ++ content ++ ")"

end Slot

end TreeEnsemble
