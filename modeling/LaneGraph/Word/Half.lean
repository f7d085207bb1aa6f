import LaneGraph.Word.Single

/-!
# Half-precision words

Streams may store numbers as binary16. Widening is exact. Narrowing rounds to
nearest with ties to even, turns small numbers into subnormal halves and large
ones into infinity.
-/

namespace LaneGraph

/-- A binary16 pattern: one sign bit, five exponent bits, ten fraction bits. -/
structure Half where
  /-- The pattern as an unsigned word. -/
  bits : UInt16
deriving DecidableEq, Repr, Inhabited

namespace Half

/-- The sign bit. -/
def negative (h : Half) : Bool := 2 ^ 15 ≤ h.bits.toNat

/-- The biased exponent field, from 0 to 31. -/
def exponentField (h : Half) : Nat := h.bits.toNat / 2 ^ 10 % 2 ^ 5

/-- The fraction field. -/
def fraction (h : Half) : Nat := h.bits.toNat % 2 ^ 10

/-- The pattern is a NaN. -/
def isNaN (h : Half) : Bool := h.exponentField = 31 && h.fraction != 0

/-- The magnitude pattern nearest to a single-precision number, ties to even.
A carry out of the fraction raises the exponent, up to infinity. A number below
`2 ^ -25` becomes zero, and so does `2 ^ -25` itself, whose even neighbour is
zero. A NaN keeps only the fact of being one. -/
def magnitudeOfSingle (x : Single) : Nat :=
  if x.exponentField = 255 then
    if x.fraction = 0 then 0x7c00 else 0x7e00
  else if 143 ≤ x.exponentField then 0x7c00
  else if 112 < x.exponentField then
    (x.exponentField - 112) * 2 ^ 10 + shiftRightEven x.fraction 13
  else if 102 ≤ x.exponentField then
    shiftRightEven (2 ^ 23 + x.fraction) (126 - x.exponentField)
  else 0

/-- Narrow to half precision. -/
def ofSingle (x : Single) : Half :=
  ⟨UInt16.ofNat (magnitudeOfSingle x + if x.negative then 2 ^ 15 else 0)⟩

/-- The single-precision magnitude pattern of the same value. Subnormal halves
are normalised; a NaN keeps its payload in the upper fraction bits. -/
def singleMagnitude (h : Half) : Nat :=
  if h.exponentField = 31 then 0x7f800000 + h.fraction * 2 ^ 13
  else if h.exponentField = 0 then
    if h.fraction = 0 then 0
    else
      let top := h.fraction.log2
      (top + 102) * 2 ^ 23 + h.fraction * 2 ^ (23 - top)
  else (h.exponentField + 112) * 2 ^ 23 + h.fraction * 2 ^ 13

/-- Widen to single precision, exactly. -/
def toSingle (h : Half) : Single := Single.ofSigned h.negative h.singleMagnitude

end Half

end LaneGraph
