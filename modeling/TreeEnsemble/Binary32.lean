/-!
Binary floating point numbers of 32 bits, as bit patterns. The order of two numbers is read off the
patterns: after the sign bit, a larger magnitude is a larger absolute value, so a number that is
not NaN is placed on a line by its signed magnitude, where both zeros share one place.
-/

namespace TreeEnsemble

/-- One bit pattern; every pattern is a number, an infinity or a NaN. -/
structure Binary32 where
  bits : UInt32
  deriving DecidableEq, Inhabited

namespace Binary32

def zero : Binary32 := ⟨0⟩

/-- The pattern without its sign bit. -/
def magnitude (x : Binary32) : Nat := x.bits.toNat % 0x80000000

def negative (x : Binary32) : Bool := decide (0x80000000 ≤ x.bits.toNat)

/-- The magnitude of the infinities; NaNs lie above it, finite numbers below. -/
def infinityMagnitude : Nat := 0x7f800000

def isNaN (x : Binary32) : Bool := decide (infinityMagnitude < x.magnitude)

def isFinite (x : Binary32) : Bool := decide (x.magnitude < infinityMagnitude)

def ofSignMagnitude (negative : Bool) (magnitude : Nat) : Binary32 :=
  ⟨UInt32.ofNat (if negative then 0x80000000 + magnitude else magnitude)⟩

def infinity (negative : Bool) : Binary32 := ofSignMagnitude negative infinityMagnitude

/-- The NaN that arithmetic produces. -/
def quietNaN : Binary32 := ⟨0x7fc00000⟩

/-- The place of a number that is not NaN on the line of numbers. -/
def rank (x : Binary32) : Int := if x.negative then -(x.magnitude : Int) else x.magnitude

/-- The order of two numbers, absent when one of them is NaN. -/
def compare? (x y : Binary32) : Option Ordering :=
  if x.isNaN || y.isNaN then none else some (compare x.rank y.rank)

def lt (x y : Binary32) : Bool := x.compare? y == some .lt

/-- Equality of numbers: the zeros are equal, a NaN equals nothing. -/
def eqv (x y : Binary32) : Bool := x.compare? y == some .eq

def le (x y : Binary32) : Bool := x.lt y || x.eqv y

/-- The place of a pattern in the total order of all patterns: negative NaNs first, then the
numbers with -0 before 0, then positive NaNs. -/
def totalRank (x : Binary32) : Int :=
  if x.negative then -(x.magnitude : Int) - 1 else x.magnitude

def totalLe (x y : Binary32) : Bool := decide (x.totalRank ≤ y.totalRank)

theorem lt_iff {x y : Binary32} :
    x.lt y = true ↔ x.isNaN = false ∧ y.isNaN = false ∧ x.rank < y.rank := by
  cases hx : x.isNaN <;> cases hy : y.isNaN <;>
    simp [lt, compare?, hx, hy, Int.compare_eq_lt]

theorem eqv_iff {x y : Binary32} :
    x.eqv y = true ↔ x.isNaN = false ∧ y.isNaN = false ∧ x.rank = y.rank := by
  cases hx : x.isNaN <;> cases hy : y.isNaN <;>
    simp [eqv, compare?, hx, hy]

theorem le_iff {x y : Binary32} :
    x.le y = true ↔ x.isNaN = false ∧ y.isNaN = false ∧ x.rank ≤ y.rank := by
  rw [le, Bool.or_eq_true, lt_iff, eqv_iff]
  constructor
  · rintro (⟨hx, hy, h⟩ | ⟨hx, hy, h⟩)
    · exact ⟨hx, hy, by omega⟩
    · exact ⟨hx, hy, by omega⟩
  · rintro ⟨hx, hy, h⟩
    rcases Int.lt_or_eq_of_le h with h | h
    · exact Or.inl ⟨hx, hy, h⟩
    · exact Or.inr ⟨hx, hy, h⟩

theorem lt_trans {x y z : Binary32} (hxy : x.lt y = true) (hyz : y.lt z = true) :
    x.lt z = true := by
  obtain ⟨hx, _, hr⟩ := lt_iff.mp hxy
  obtain ⟨_, hz, hr'⟩ := lt_iff.mp hyz
  exact lt_iff.mpr ⟨hx, hz, by omega⟩

theorem lt_of_not_le {x y : Binary32} (hx : x.isNaN = false) (hy : y.isNaN = false)
    (h : y.le x = false) : x.lt y = true := by
  refine lt_iff.mpr ⟨hx, hy, ?_⟩
  rcases Int.lt_or_le x.rank y.rank with hr | hr
  · exact hr
  · rw [le_iff.mpr ⟨hy, hx, hr⟩] at h
    nomatch h

theorem eqv_self {x : Binary32} (hx : x.isNaN = false) : x.eqv x = true :=
  eqv_iff.mpr ⟨hx, hx, rfl⟩

theorem eqv_symm {x y : Binary32} (h : x.eqv y = true) : y.eqv x = true := by
  obtain ⟨hx, hy, hr⟩ := eqv_iff.mp h
  exact eqv_iff.mpr ⟨hy, hx, hr.symm⟩

theorem eqv_trans {x y z : Binary32} (hxy : x.eqv y = true) (hyz : y.eqv z = true) :
    x.eqv z = true := by
  obtain ⟨hx, _, hr⟩ := eqv_iff.mp hxy
  obtain ⟨_, hz, hr'⟩ := eqv_iff.mp hyz
  exact eqv_iff.mpr ⟨hx, hz, by omega⟩

/-- Among numbers the total order refines the order of their values. -/
theorem rank_le_of_totalRank_le {x y : Binary32} (h : x.totalRank ≤ y.totalRank) :
    x.rank ≤ y.rank := by
  simp only [totalRank, rank] at h ⊢
  split at h <;> split at h <;> simp_all only [Bool.false_eq_true, ↓reduceIte] <;> omega

/-- The total order tells any two patterns apart. -/
theorem totalRank_inj {x y : Binary32} (h : x.totalRank = y.totalRank) : x = y := by
  obtain ⟨a⟩ := x
  obtain ⟨b⟩ := y
  have ha := a.toNat_lt
  have hb := b.toNat_lt
  have : a.toNat = b.toNat := by
    simp only [totalRank, negative, magnitude, decide_eq_true_eq] at h
    split at h <;> split at h <;> omega
  rw [UInt32.toNat_inj.mp this]

end Binary32

end TreeEnsemble
