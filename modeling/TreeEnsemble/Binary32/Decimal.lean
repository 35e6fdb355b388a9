import TreeEnsemble.Binary32.Arithmetic

/-!
Decimal text of a number: the fewest digits that read back as the same number, and of those the
ones nearest to it. A finite number reads back from every decimal strictly between its midpoints
with its two neighbours, and from the midpoints themselves when its significand is even. Those
bounds are fractions, so each test compares two natural numbers.
-/

namespace TreeEnsemble.Binary32

/-- A positive number and the interval of reals that round to it, over one denominator. -/
structure Interval where
  value : Nat
  low : Nat
  high : Nat
  denominator : Nat
  closed : Bool

/-- The interval of a positive finite number. Below a power of two the neighbour is half as far. -/
def interval (x : Binary32) : Interval :=
  let exponent := x.magnitude / 0x800000
  let fraction := x.magnitude % 0x800000
  let gap := Nat.pow 2 (exponent - 1)
  { value := 4 * x.absUnits
    low := 4 * x.absUnits - (if fraction = 0 && 1 < exponent then gap else 2 * gap)
    high := 4 * x.absUnits + 2 * gap
    denominator := 4 * Nat.pow 2 unitExponent
    closed := fraction % 2 == 0 }

/-- Whether the decimal `d * 10 ^ e` lies in the interval. -/
def Interval.holds (i : Interval) (d : Nat) (e : Int) : Bool :=
  let point := if 0 ≤ e then d * Nat.pow 10 e.toNat * i.denominator else d * i.denominator
  let scale := if 0 ≤ e then 1 else Nat.pow 10 (-e).toNat
  if i.closed then decide (i.low * scale ≤ point) && decide (point ≤ i.high * scale)
  else decide (i.low * scale < point) && decide (point < i.high * scale)

/-- The value as the quotient of two numbers, in steps of `10 ^ e`. -/
def Interval.steps (i : Interval) (e : Int) : Nat × Nat :=
  if 0 ≤ e then (i.value, i.denominator * Nat.pow 10 e.toNat)
  else (i.value * Nat.pow 10 (-e).toNat, i.denominator)

/-- The decimal in steps of `10 ^ e` that reads back and lies nearest, the upper one of two. -/
def Interval.nearest? (i : Interval) (e : Int) : Option Nat :=
  let (n, d) := i.steps e
  let q := n / d
  let below := 0 < q && i.holds q e
  let above := i.holds (q + 1) e
  if above && (!below || d ≤ 2 * (n % d)) then some (q + 1)
  else if below then some q
  else none

/-- The least `e` from `start` on with `value < 10 ^ e`, searched through `fuel` exponents. -/
def Interval.decimalExponent (i : Interval) : Nat → Int → Int
  | 0, e => e
  | fuel + 1, e =>
    let (n, d) := i.steps e
    if n < d then e else i.decimalExponent fuel (e + 1)

structure Decimal where
  digits : Nat
  exponent : Int

/-- Tries steps from coarse to fine. -/
def Interval.shortest (i : Interval) (top : Int) : Nat → Decimal
  | 0 => ⟨0, 0⟩
  | fuel + 1 =>
    match i.nearest? top with
    | some d => ⟨d, top⟩
    | none => i.shortest (top - 1) fuel

/-- The shortest decimal of a positive finite number. All numbers lie below 10^39 and above
10^-46, and nine digits always suffice. -/
def shortestDecimal (x : Binary32) : Decimal :=
  let i := x.interval
  i.shortest (i.decimalExponent 85 (-45)) 12

/-- The decimal written without an exponent, with at least `places` digits after the point. -/
def Decimal.positional (d : Decimal) (places : Nat) : String :=
  let text := toString d.digits
  if 0 ≤ d.exponent then
    let whole := text ++ String.ofList (List.replicate d.exponent.toNat '0')
    if places = 0 then whole else whole ++ "." ++ String.ofList (List.replicate places '0')
  else
    let behind := (-d.exponent).toNat
    let padded := List.replicate (behind + 1 - text.length) '0' ++ text.toList
    String.ofList (padded.take (padded.length - behind)) ++ "." ++
      String.ofList (padded.drop (padded.length - behind))

/-- The decimal with one digit before the point and the exponent after an `e`. -/
def Decimal.scientific (d : Decimal) : String :=
  let text := (toString d.digits).toList
  let exponent := d.exponent + (text.length : Int) - 1
  let mantissa := match text with
    | [] => ""
    | [c] => String.ofList [c]
    | c :: cs => String.ofList (c :: '.' :: cs)
  mantissa ++ "e" ++ toString exponent

/-- How decimals are laid out: the least number of places after the point, and whether very small
and very large numbers get an exponent. -/
structure DecimalLayout where
  places : Nat
  exponents : Bool

/-- The layout inside messages: no point without need, never an exponent. -/
def plainLayout : DecimalLayout := ⟨0, false⟩

/-- The layout that shows the number to be a floating point one: always a point or an exponent,
and an exponent for numbers below the one nearest to 10^-4 and from the one nearest to 10^16
on. -/
def explicitLayout : DecimalLayout := ⟨1, true⟩

/-- The number nearest to 10^-4. -/
def tenThousandth : Binary32 := ⟨0x38d1b717⟩

/-- The number nearest to 10^16. -/
def tenQuadrillion : Binary32 := ⟨0x5a0e1bca⟩

def DecimalLayout.usesExponent (l : DecimalLayout) (x : Binary32) : Bool :=
  l.exponents && (decide (x.magnitude < tenThousandth.magnitude)
    || decide (tenQuadrillion.magnitude ≤ x.magnitude))

/-- The text of any number. The sign of a NaN is not written. -/
def toDecimal (l : DecimalLayout) (x : Binary32) : String :=
  if x.isNaN then "NaN"
  else
    let sign := if x.negative then "-" else ""
    let body :=
      if !x.isFinite then "inf"
      else if x.magnitude = 0 then Decimal.positional ⟨0, 0⟩ l.places
      else if l.usesExponent x then x.shortestDecimal.scientific
      else x.shortestDecimal.positional l.places
    sign ++ body

end TreeEnsemble.Binary32
