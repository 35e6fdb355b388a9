import TreeEnsemble.Slot
import TreeEnsemble.Span

/-!
An arena holds the slots of several workers in one buffer: first all slots of worker 0, row by row,
then those of worker 1, and so on. Each worker writes only its own part.
-/

namespace TreeEnsemble

structure Arena where
  workers : Nat
  rowsPerWorker : Nat
  features : Nat
  slots : Array Slot
  size_eq : slots.size = workers * rowsPerWorker * features

namespace Arena

/-- An arena of slots that were never written. -/
def new (workers rowsPerWorker features : Nat) : Arena where
  workers := workers
  rowsPerWorker := rowsPerWorker
  features := features
  slots := Array.replicate (workers * rowsPerWorker * features) .unwritten
  size_eq := Array.size_replicate

def singleRow (workers features : Nat) : Arena := new workers 1 features

def workerSize (a : Arena) : Nat := a.rowsPerWorker * a.features

def whole (a : Arena) : Span := ⟨0, a.slots.size⟩

def worker (a : Arena) (w : Nat) : Except Fault Span :=
  if w < a.workers then a.whole.slice (w * a.workerSize) ((w + 1) * a.workerSize)
  else .error (.noSuchWorker w)

def row (a : Arena) (w r : Nat) : Except Fault Span :=
  if r < a.rowsPerWorker then do
    let s ← a.worker w
    s.slice (r * a.features) ((r + 1) * a.features)
  else .error (.noSuchRow r)

/-- Cuts `k` pieces of length `n` off the front of a span, one after the other. -/
def pieces (n : Nat) : (k : Nat) → Span → Except Fault (List Span)
  | 0, _ => .ok []
  | k + 1, s => do
    let (first, rest) ← s.split n
    let others ← pieces n k rest
    pure (first :: others)

/-- The places of all workers' slots, in the order of workers. -/
def workerSpans (a : Arena) : Except Fault (List Span) := pieces a.workerSize a.workers a.whole

def read (a : Arena) (s : Span) : Array Slot := s.read a.slots

/-- Writes slots from the start of a span on; those beyond its end are dropped. -/
def write (a : Arena) (s : Span) (new : Array Slot) : Arena :=
  { a with
    slots := overwrite a.slots s.start (new.toList.take s.size)
    size_eq := by rw [size_overwrite, a.size_eq] }

def set (a : Arena) (s : Span) (offset : Nat) (slot : Slot) : Except Fault Arena :=
  if offset < s.size ∧ s.start + offset < a.slots.size then
    .ok { a with
      slots := a.slots.setIfInBounds (s.start + offset) slot
      size_eq := by rw [Array.size_setIfInBounds, a.size_eq] }
  else .error .outOfBounds

end Arena

end TreeEnsemble
