import TreeEnsemble.Binary32.Arithmetic
import TreeEnsemble.Fault

/-!
Matrices of numbers, such as a batch of rows or the scores of all groups for all rows. A matrix
without rows still has a width.
-/

namespace TreeEnsemble

structure Matrix where
  height : Nat
  width : Nat
  rows : Vector (Vector Binary32 width) height

namespace Matrix

def ofFn (height width : Nat) (f : Nat → Nat → Binary32) : Matrix :=
  ⟨height, width, Vector.ofFn fun i => Vector.ofFn fun j => f i j⟩

def filled (height width : Nat) (x : Binary32) : Matrix :=
  ⟨height, width, Vector.replicate height (Vector.replicate width x)⟩

/-- The number at a place, if the matrix has it. -/
def get? (m : Matrix) (i j : Nat) : Option Binary32 := m.rows[i]?.bind fun row => row[j]?

def row (m : Matrix) (i : Nat) : Except Fault (Array Binary32) :=
  if h : i < m.height then .ok m.rows[i].toArray else .error .outOfBounds

def toLists (m : Matrix) : List (List Binary32) := m.rows.toList.map Vector.toList

/-- Equality of matrices, compared as numbers. A matrix that holds a NaN differs from itself. -/
def eqv (a b : Matrix) : Bool :=
  a.height == b.height && a.width == b.width &&
    (List.range a.height).all fun i => (List.range a.width).all fun j =>
      match a.get? i j, b.get? i j with
      | some x, some y => x.eqv y
      | _, _ => false

def addAt (m : Matrix) (i j : Nat) (x : Binary32) : Except Fault Matrix :=
  if h : i < m.height ∧ j < m.width then
    .ok { m with rows := m.rows.set i (m.rows[i].set j (m.rows[i][j] + x) h.2) h.1 }
  else .error .outOfBounds

/-- Fills each row with the number listed for it. -/
def fillRows (m : Matrix) (xs : Array Binary32) : Matrix :=
  { m with rows := m.rows.mapIdx fun i row => match xs[i]? with
      | some x => Vector.replicate m.width x
      | none => row }

end Matrix

end TreeEnsemble
