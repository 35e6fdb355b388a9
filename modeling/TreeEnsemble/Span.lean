import TreeEnsemble.Fault

/-!
A span is a run of consecutive positions, of rows in a batch or of cells in a flat buffer. It can
be narrowed, split at a length, and cut into chunks.
-/

namespace TreeEnsemble

/-- The positions from `start` up to, but without, `stop`. -/
structure Span where
  start : Nat
  stop : Nat
  deriving DecidableEq

namespace Span

def size (s : Span) : Nat := s.stop - s.start

def positions (s : Span) : List Nat := List.range' s.start s.size

/-- The part from offset `first` up to offset `last`. -/
def slice (s : Span) (first last : Nat) : Except Fault Span :=
  if first ≤ last ∧ last ≤ s.size then .ok ⟨s.start + first, s.start + last⟩
  else .error .outOfBounds

def split (s : Span) (n : Nat) : Except Fault (Span × Span) :=
  if n ≤ s.size then .ok (⟨s.start, s.start + n⟩, ⟨s.start + n, s.stop⟩)
  else .error .outOfBounds

/-- How many chunks of size `b` hold `a` things. -/
def ceilDiv (a b : Nat) : Nat := (a + b - 1) / b

/-- Consecutive chunks of `n` positions; the last one may be shorter. -/
def chunks (s : Span) (n : Nat) : List Span :=
  (List.range (ceilDiv s.size n)).map fun k =>
    ⟨s.start + k * n, min (s.start + (k + 1) * n) s.stop⟩

/-- The elements at the positions of the span. -/
def read {α : Type} (s : Span) (a : Array α) : Array α := a.extract s.start s.stop

end Span

/-- Writes a list over an array from position `i` on; what does not fit is dropped. -/
def overwrite {α : Type} (a : Array α) (i : Nat) : List α → Array α
  | [] => a
  | x :: xs => overwrite (a.setIfInBounds i x) (i + 1) xs

theorem size_overwrite {α : Type} (a : Array α) (i : Nat) (xs : List α) :
    (overwrite a i xs).size = a.size := by
  induction xs generalizing a i with
  | nil => rfl
  | cons x xs ih => rw [overwrite, ih, Array.size_setIfInBounds]

end TreeEnsemble
