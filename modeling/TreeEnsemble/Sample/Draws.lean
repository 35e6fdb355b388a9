import TreeEnsemble.Binary32.Arithmetic

/-!
Sources of random draws. A source turns a state into a drawn value and the next state; the samples
made from it need only that every draw lies in the range asked for.
-/

namespace TreeEnsemble

structure Draws (σ : Type) where
  /-- A number below `n`. -/
  below : (n : Nat) → σ → Nat × σ
  /-- A number from 0 up to, but without, 1. -/
  unit : σ → Binary32 × σ
  /-- A number from `lo` up to, but without, `hi`. -/
  between : (lo hi : Binary32) → σ → Binary32 × σ
  /-- True in so many cases out of a hundred. -/
  chance : (percent : Nat) → σ → Bool × σ

namespace Draws

/-- Every draw lies in the range asked for. -/
structure InRange {σ : Type} (d : Draws σ) : Prop where
  below : ∀ n s, 0 < n → (d.below n s).1 < n
  unit : ∀ s, Binary32.zero.le (d.unit s).1 = true ∧ (d.unit s).1.lt ⟨0x3f800000⟩ = true
  between : ∀ lo hi s, lo.lt hi = true →
    lo.le (d.between lo hi s).1 = true ∧ (d.between lo hi s).1.lt hi = true
  never : ∀ s, (d.chance 0 s).1 = false
  always : ∀ s, (d.chance 100 s).1 = true

/-- The next state of a linear congruential generator. -/
def advance (s : UInt64) : UInt64 := s * 6364136223846793005 + 1442695040888963407

/-- The upper half of a state, which is better mixed than the lower one. -/
def upper (s : UInt64) : Nat := (s >>> 32).toNat

/-- A number out of 2^24 equally spaced ones from 0 on. -/
def unitFrom (n : Nat) : Binary32 := Binary32.ofDyadic false (n / 0x100) 24

/-- Moves a number below 1 into a range, and down to its lower end if rounding brought it to the
upper one. -/
def stretch (lo hi u : Binary32) : Binary32 :=
  let x := lo + u * (hi - lo)
  if lo.le x && x.lt hi then x else lo

/-- Draws from a linear congruential generator. -/
def congruential : Draws UInt64 where
  below n s := (upper s % n, advance s)
  unit s := (unitFrom (upper s), advance s)
  between lo hi s := (stretch lo hi (unitFrom (upper s)), advance s)
  chance percent s := (decide (upper s % 100 < percent), advance s)

/-- The first state for a seed. -/
def seeded (seed : UInt64) : UInt64 := advance (advance (seed ^^^ 0x9e3779b97f4a7c15))

end Draws

end TreeEnsemble
