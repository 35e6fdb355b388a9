import TreeEnsemble.Matrix
import TreeEnsemble.Sample.Draws

/-!
Random batches of rows: numbers between two bounds, or from the grid on which the thresholds of
random trees lie, with some of them made NaN.
-/

namespace TreeEnsemble.Sample

variable {σ : Type}

/-- Draws `n` values, one after the other. -/
def drawList {α : Type} (draw : σ → α × σ) : (n : Nat) → σ → List α × σ
  | 0, s => ([], s)
  | n + 1, s =>
    let (x, s) := draw s
    let (xs, s) := drawList draw n s
    (x :: xs, s)

/-- A matrix of values drawn row by row. -/
def drawMatrix (draw : σ → Binary32 × σ) (height width : Nat) (s : σ) : Matrix :=
  let values := (drawList draw (height * width) s).1.toArray
  .ofFn height width fun i j => values.getD (i * width + j) .zero

def gridStep : Binary32 := ⟨0x3e800000⟩

def gridStart : Binary32 := ⟨0xbf800000⟩

def gridLevels : Nat := 13

/-- The grid value of a level. -/
def gridValue (level : Nat) : Binary32 := gridStart + .ofDyadic false level 0 * gridStep

def drawGridValue (d : Draws σ) (s : σ) : Binary32 × σ :=
  let (level, s) := d.below gridLevels s
  (gridValue level, s)

/-- Random numbers from `lo` to `hi`. -/
def features (d : Draws σ) (height width : Nat) (lo hi : Binary32) (s : σ) :
    Except Fault Matrix :=
  if lo.le hi then
    .ok (drawMatrix (fun s => let (u, s) := d.unit s; (lo + u * (hi - lo), s)) height width s)
  else .error .unmet

/-- Random values of the grid. -/
def gridFeatures (d : Draws σ) (height width : Nat) (s : σ) : Matrix :=
  drawMatrix (drawGridValue d) height width s

/-- Replaces so many entries out of a hundred by NaN. -/
def withNaNs (d : Draws σ) (m : Matrix) (percent : Nat) (s : σ) : Except Fault Matrix :=
  if 100 < percent ∧ 0 < m.height * m.width then .error .unmet
  else
    let flags := (drawList (d.chance percent) (m.height * m.width) s).1.toArray
    .ok (.ofFn m.height m.width fun i j =>
      if flags.getD (i * m.width + j) false then .quietNaN
      else (m.get? i j).getD .zero)

end TreeEnsemble.Sample
