import LaneGraph.Arithmetic.Power
import LaneGraph.Word.Single

/-!
# Composite single-precision operations

These operations have no instruction of their own. Each is written as the exact
sequence of primitive operations that stands for it, so a folded constant has
the bits that execution would produce.
-/

namespace LaneGraph.Single

/-- The circle constant, rounded. -/
def pi : Single := ⟨0x40490fdb⟩

/-- Degrees in one radian. -/
def degreesPerRadian : Single := div 180 pi

/-- Radians in one degree. -/
def radiansPerDegree : Single := div pi 180

/-- Difference from zero. -/
def neg (a : Single) : Single := sub 0 a

/-- Clamp to zero and one. -/
def saturate (a : Single) : Single := max 0 (min 1 a)

/-- The part after the point, with the sign of the number. -/
def frac (a : Single) : Single := sub a a.trunc

/-- Radians to degrees. -/
def radToDeg (a : Single) : Single := mul a degreesPerRadian

/-- Degrees to radians. -/
def degToRad (a : Single) : Single := mul a radiansPerDegree

/-- Remainder of the truncated quotient. -/
def modulo (a b : Single) : Single := sub a (mul b (div a b).trunc)

/-- Logarithm of `value` to `base`. -/
def log (base value : Single) : Single :=
  if base.eq 2 then value.log2 else mul value.log2 (div 1 base.log2)

/-- Clamp to the given bounds; the lower bound wins if they cross. -/
def clamp (value low high : Single) : Single := max low (min high value)

/-- Straight-line interpolation from `a` to `b`. -/
def lerp (a b s : Single) : Single := add a (mul s (sub b a))

/-- Position of `x` between two edges, clamped to zero and one. -/
def stepParameter (edge0 edge1 x : Single) : Single :=
  saturate (div (sub x edge0) (sub edge1 edge0))

/-- Cubic step between two edges. -/
def smoothStep (edge0 edge1 x : Single) : Single :=
  let t := stepParameter edge0 edge1 x
  mul (mul t t) (sub 3 (mul 2 t))

/-- Quintic step between two edges. -/
def smootherStep (edge0 edge1 x : Single) : Single :=
  let t := stepParameter edge0 edge1 x
  let inner := add (mul t (sub (mul t 6) 15)) 10
  mul (mul (mul t t) t) inner

/-- The exponent as an integer, if it is whole and has a multiplication
chain. -/
def wholeExponent? (exponent : Single) : Option Int32 :=
  if (sub exponent exponent.trunc).eq 0 && le 2 exponent && le exponent 16 then
    some exponent.toInt32
  else none

/-- Power. Base two is a power of two, exponent one is the base, small whole
exponents follow their multiplication chain, and all else goes through
logarithms to base two. -/
def pow (base exponent : Single) : Single :=
  if base.eq 2 then exponent.exp2
  else if exponent.eq 1 then base
  else match (wholeExponent? exponent).bind Power.chain? with
    | some chain => Power.eval mul base chain
    | none => (mul exponent base.log2).exp2

end LaneGraph.Single
