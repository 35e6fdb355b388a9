import TreeEnsemble.Binary32

/-!
Arithmetic with one rounding. Every finite number is a whole number of units of 2^-149, the
distance between the smallest numbers, so a sum is computed exactly as an integer and a product
exactly as an integer over a power of two; the result is then rounded once, to the nearest number,
a half going to the even neighbour.
-/

namespace TreeEnsemble.Binary32

/-- The exponent of the unit of which every finite number is a multiple: the unit is 2^-149. -/
def unitExponent : Nat := 149

/-- The absolute value of a finite number, in units. -/
def absUnits (x : Binary32) : Nat :=
  let exponent := x.magnitude / 0x800000
  let fraction := x.magnitude % 0x800000
  if exponent = 0 then fraction else (0x800000 + fraction) * Nat.pow 2 (exponent - 1)

def units (x : Binary32) : Int := if x.negative then -(x.absUnits : Int) else x.absUnits

/-- The integer nearest to `n / 2 ^ k`, the even one of two. -/
def halveToEven (n k : Nat) : Nat :=
  let one := Nat.pow 2 k
  let q := n / one
  let r := 2 * (n % one)
  if r > one || (r == one && q % 2 == 1) then q + 1 else q

/-- The magnitude nearest to `n / 2 ^ scale` units. Twenty-four leading bits are kept; a carry out
of them moves into the exponent by itself, since the exponent stands above the fraction in the
pattern. -/
def roundMagnitude (n scale : Nat) : Nat :=
  let dropped := max scale (n.log2 - 23)
  min ((dropped - scale) * 0x800000 + halveToEven n dropped) infinityMagnitude

/-- The number nearest to `n / 2 ^ scale` units, with the given sign. -/
def round (negative : Bool) (n scale : Nat) : Binary32 :=
  ofSignMagnitude negative (roundMagnitude n scale)

def neg (x : Binary32) : Binary32 := ofSignMagnitude (!x.negative) x.magnitude

/-- The sum of two finite numbers; the sum of opposite numbers is 0, and -0 only for two -0. -/
def addFinite (x y : Binary32) : Binary32 :=
  let s := x.units + y.units
  if s = 0 then ofSignMagnitude (x.negative && y.negative) 0
  else round (decide (s < 0)) s.natAbs 0

def add (x y : Binary32) : Binary32 :=
  if x.isNaN || y.isNaN then quietNaN
  else if x.isFinite then
    if y.isFinite then addFinite x y else y
  else if y.isFinite || x.negative == y.negative then x else quietNaN

def sub (x y : Binary32) : Binary32 := if y.isNaN then quietNaN else x.add y.neg

def mul (x y : Binary32) : Binary32 :=
  let sign := x.negative != y.negative
  if x.isNaN || y.isNaN then quietNaN
  else if x.isFinite && y.isFinite then round sign (x.absUnits * y.absUnits) unitExponent
  else if x.magnitude == 0 || y.magnitude == 0 then quietNaN
  else infinity sign

/-- The number nearest to `n / 2 ^ scale`, for `scale` at most 149. -/
def ofDyadic (negative : Bool) (n scale : Nat) : Binary32 :=
  round negative (n * Nat.pow 2 (unitExponent - scale)) 0

instance : Add Binary32 := ⟨add⟩

instance : Sub Binary32 := ⟨sub⟩

instance : Mul Binary32 := ⟨mul⟩

end TreeEnsemble.Binary32
