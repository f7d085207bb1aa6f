/-!
# Shortest decimals

A binary number stands for every real that rounds to it. The shortest decimal
of such an interval is found on grids of one, two, three … significant digits:
the first grid on which one of the two neighbours of the number lies in the
interval wins, and of two neighbours the nearer, or the upper one if both are
equally near. All arithmetic is exact on natural numbers; the ends and the
number itself share one denominator.

A decimal whose digits fill at most 64 bits is brought to double precision in
rounded steps: its digits become the nearest double, which is then multiplied or
divided by the double nearest to the power of ten. The result can therefore be
the neighbour of the double nearest to the decimal. A power of ten below the
range of doubles is divided out in two steps.
-/

namespace LaneGraph

/-- A natural number times a power of ten. -/
structure Decimal where
  /-- The digits, read as a number. -/
  digits : Nat
  /-- The power of ten. -/
  exponent : Int
deriving DecidableEq, Repr

namespace Decimal

/-- A positive number between the ends of its rounding interval, all three over
the same denominator. -/
structure Interval where
  /-- Numerator of the lower end. -/
  low : Nat
  /-- Numerator of the number. -/
  value : Nat
  /-- Numerator of the upper end. -/
  high : Nat
  /-- The common denominator. -/
  denominator : Nat
  /-- The ends belong to the interval. -/
  closed : Bool
deriving Repr

-- Powers are those of the core library, whatever else is known of the numbers.
attribute [local instance (2000)] instPowNat

/-- Power of ten by the non-negative part of an exponent. -/
def tenPow (e : Int) : Nat := 10 ^ e.toNat

/-- `digits * 10 ^ exponent` lies in the interval. -/
def Interval.holds (i : Interval) (d : Decimal) : Bool :=
  let point := d.digits * tenPow d.exponent * i.denominator
  let low := i.low * tenPow (-d.exponent)
  let high := i.high * tenPow (-d.exponent)
  if i.closed then low ≤ point && point ≤ high else low < point && point < high

/-- The largest multiple of `10 ^ exponent` that is not above the number. -/
def Interval.below (i : Interval) (exponent : Int) : Decimal :=
  ⟨i.value * tenPow (-exponent) / (i.denominator * tenPow exponent), exponent⟩

/-- The next point on the same grid. -/
def next (d : Decimal) : Decimal := { d with digits := d.digits + 1 }

/-- The number is not nearer to a point than to the next one. -/
def Interval.prefersNext (i : Interval) (d : Decimal) : Bool :=
  let doubled := 2 * i.value * tenPow (-d.exponent)
  let middle := (2 * d.digits + 1) * tenPow d.exponent * i.denominator
  middle ≤ doubled

/-- The better neighbour of the number on one grid, if any lies in the
interval. -/
def Interval.onGrid? (i : Interval) (exponent : Int) : Option Decimal :=
  let lower := i.below exponent
  let upper := lower.next
  match i.holds lower, i.holds upper with
  | true, true => some (if i.prefersNext lower then upper else lower)
  | true, false => some lower
  | false, true => some upper
  | false, false => none

/-- The decimal exponent of the leading digit, searched upward from `start`. -/
def Interval.leading (i : Interval) (start : Int) (count : Nat) : Int :=
  let candidates := (List.range count).map fun n : Nat => start + (n : Int)
  (candidates.find? fun e => i.value * tenPow (-(e + 1)) < i.denominator * tenPow (e + 1)).getD
    (start + count)

/-- Move trailing zeros of the digits into the exponent. -/
def trim (d : Decimal) : Decimal :=
  if d.digits ≠ 0 ∧ d.digits % 10 = 0 then
    trim ⟨d.digits / 10, d.exponent + 1⟩
  else d
termination_by d.digits

/-- The decimal with the fewest digits that lies in the interval, at most
`limit` digits. `leading` is the decimal exponent of the leading digit. -/
def Interval.shortest (i : Interval) (leading : Int) (limit : Nat) : Decimal :=
  let grids := (List.range limit).map fun n : Nat => leading - (n : Int)
  ((grids.findSome? i.onGrid?).getD (i.below (leading - limit))).trim

/-! ## Double precision -/

/-- The double nearest to a power of ten. -/
def tenToThe (exponent : Nat) : Float := Float.ofScientific 1 false exponent

/-- The largest power of ten that is a finite double. -/
def topPower : Nat := 308

/-- Divide by a power of ten. Two largest powers exceed every quotient that
differs from zero. -/
def dividedByPower (x : Float) (exponent : Nat) : Float :=
  if exponent ≤ topPower then x / tenToThe exponent
  else if exponent ≤ 2 * topPower then
    x / tenToThe topPower / tenToThe (exponent - topPower)
  else 0

/-- A decimal in double precision; none if it exceeds the range. -/
def toDouble? (d : Decimal) : Option Float :=
  let digits := Float.ofNat d.digits
  if d.exponent < 0 then some (dividedByPower digits (-d.exponent).toNat)
  else if d.digits = 0 then some 0
  else if d.exponent.toNat ≤ topPower then
    let product := digits * tenToThe d.exponent.toNat
    if product.isInf then none else some product
  else none

end Decimal

end LaneGraph
