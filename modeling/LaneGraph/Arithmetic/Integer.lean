import LaneGraph.Arithmetic.Power
import LaneGraph.Word.Single

/-!
# Integer operations

Integers are 32-bit two's complement words. Sums, differences, products,
negation and absolute value wrap. Division truncates toward zero, a zero
divisor gives zero, and so the remainder by zero is the dividend. A shift count
is taken modulo 32 and a right shift copies the sign. Operations that have no
instruction of their own are written as the instruction sequence they stand
for.
-/

namespace LaneGraph.Integer

/-- The smaller operand. -/
def min (a b : Int32) : Int32 := if b < a then b else a

/-- The larger operand. -/
def max (a b : Int32) : Int32 := if a < b then b else a

/-- Magnitude; the least integer is its own. -/
def abs (a : Int32) : Int32 := if a < 0 then 0 - a else a

/-- Position of the highest one bit of a positive number, zero otherwise. -/
def log2 (a : Int32) : Int32 := if 0 < a then Int32.ofNat a.toInt.toNat.log2 else 0

/-- Difference from zero. -/
def neg (a : Int32) : Int32 := 0 - a

/-- Clamp to zero and one. -/
def saturate (a : Int32) : Int32 := max 0 (min 1 a)

/-- Remainder with the sign of the dividend. -/
def modulo (a b : Int32) : Int32 := a - b * (a / b)

/-- One shifted left. -/
def pow2 (a : Int32) : Int32 := 1 <<< a

/-- Clamp to the given bounds; the lower bound wins if they cross. -/
def clamp (value low high : Int32) : Int32 := max low (min high value)

/-- Power. Base two shifts, exponent one is the base, small exponents follow
their multiplication chain, and all else goes through rounded single-precision
powers of two. -/
def pow (base exponent : Int32) : Int32 :=
  if base = 2 then pow2 exponent
  else if exponent = 1 then base
  else match Power.chain? exponent with
    | some chain => Power.eval (· * ·) base chain
    | none =>
      ((Single.ofInt32 exponent).mul (Single.ofInt32 base).log2).exp2.round.toInt32

end LaneGraph.Integer
