/-!
# Single-precision words

A single-precision number is kept as its 32-bit pattern, so that moving a value
between streams, registers and constants never disturbs it: zeros keep their
sign and a NaN keeps its payload. Comparisons, roundings to whole numbers and
conversions from and to integers are exact integer arithmetic on the fields of
the pattern. Sums, products, quotients, square roots and the elementary
functions are those of the processor's binary32 arithmetic.

Every narrowing of a binary number in this library drops low bits of a natural
magnitude. The one rule used is round to nearest with ties to the even
neighbour; it is stated here once, on `Nat`.
-/

namespace LaneGraph

-- Powers are those of the core library in every module, also where the numbers are known
-- to be a structure with powers of its own.
attribute [instance (2000), default_instance 20000] instPowNat

/-- Divide `value` by `2 ^ shift` and round to nearest; an exact half goes to
the even neighbour. -/
def shiftRightEven (value shift : Nat) : Nat :=
  let unit := 2 ^ shift
  let kept := value / unit
  let rest := value % unit
  if unit < 2 * rest ∨ (2 * rest = unit ∧ kept % 2 = 1) then kept + 1 else kept

/-- A binary32 pattern: one sign bit, eight exponent bits, twenty-three fraction
bits. -/
structure Single where
  /-- The pattern as an unsigned word. -/
  bits : UInt32
deriving DecidableEq, Repr, Inhabited, Hashable

namespace Single

/-- The pattern without its sign bit. -/
def magnitude (x : Single) : Nat := x.bits.toNat % 2 ^ 31

/-- The sign bit. Zeros and NaNs have one too. -/
def negative (x : Single) : Bool := 2 ^ 31 ≤ x.bits.toNat

/-- The biased exponent field, from 0 to 255. -/
def exponentField (x : Single) : Nat := x.magnitude / 2 ^ 23

/-- The fraction field. -/
def fraction (x : Single) : Nat := x.magnitude % 2 ^ 23

/-- The integer significand: a normal number has its leading one restored, so
that a finite `x` has magnitude `significand * 2 ^ (scale - 150)`. -/
def significand (x : Single) : Nat :=
  if x.exponentField = 0 then x.fraction else 2 ^ 23 + x.fraction

/-- The exponent that goes with `significand`, still biased by 150. -/
def scale (x : Single) : Nat := max 1 x.exponentField

/-- The pattern is a NaN. -/
def isNaN (x : Single) : Bool := 0x7f800000 < x.magnitude

/-- The pattern is an infinity of either sign. -/
def isInfinite (x : Single) : Bool := x.magnitude = 0x7f800000

/-- Put a sign in front of a magnitude below `2 ^ 31`. -/
def ofSigned (negative : Bool) (magnitude : Nat) : Single :=
  ⟨UInt32.ofNat (if negative then 2 ^ 31 + magnitude else magnitude)⟩

/-- The magnitude pattern nearest to the natural number `n`, ties to even. A
carry out of the fraction raises the exponent. -/
def natMagnitude (n : Nat) : Nat :=
  if n = 0 then 0
  else
    let top := n.log2
    let kept := if top ≤ 23 then n * 2 ^ (23 - top) else shiftRightEven n (top - 23)
    (top + 126) * 2 ^ 23 + kept

/-- The number nearest to a natural number below `2 ^ 64`, ties to even. -/
def ofNat (n : Nat) : Single := ofSigned false (natMagnitude n)

instance (n : Nat) : OfNat Single n := ⟨ofNat n⟩

/-- The number nearest to a 32-bit integer, ties to even. -/
def ofInt32 (n : Int32) : Single :=
  ofSigned (n < 0) (natMagnitude n.toInt.natAbs)

/-- The integer obtained by dropping the fraction. Values outside the range
stop at its ends and a NaN gives zero. -/
def toInt32 (x : Single) : Int32 :=
  if x.isNaN then 0
  else if 158 ≤ x.exponentField then
    if x.negative then Int32.minValue else Int32.maxValue
  else
    let whole :=
      if 150 ≤ x.scale then x.significand * 2 ^ (x.scale - 150)
      else x.significand / 2 ^ (150 - x.scale)
    Int32.ofInt (if x.negative then -(whole : Int) else whole)

/-- Keep the sign, clear it in the magnitude. -/
def abs (x : Single) : Single := ⟨x.bits &&& 0x7fffffff⟩

/-- Position of a non-NaN pattern in the numeric order. The two zeros share a
position. -/
def rank (x : Single) : Int := if x.negative then -(x.magnitude : Int) else x.magnitude

/-- Numeric equality: NaN equals nothing, the two zeros are equal. -/
def eq (a b : Single) : Bool := !a.isNaN && !b.isNaN && a.rank = b.rank

/-- Numeric order; false as soon as one side is NaN. -/
def lt (a b : Single) : Bool := !a.isNaN && !b.isNaN && a.rank < b.rank

/-- Numeric order or equality; false as soon as one side is NaN. -/
def le (a b : Single) : Bool := !a.isNaN && !b.isNaN && a.rank ≤ b.rank

/-- The first operand is a NaN that gives way to a number. -/
def givesWay (a b : Single) : Bool := a.isNaN && !b.isNaN

/-- The smaller operand. A NaN gives way to a number. The first operand stays if
both are equal or both are NaN. -/
def min (a b : Single) : Single := if a.givesWay b || b.lt a then b else a

/-- The larger operand. A NaN gives way to a number. The first operand stays if
both are equal or both are NaN. -/
def max (a b : Single) : Single := if a.givesWay b || a.lt b then b else a

/-! ## Whole-number roundings -/

/-- Set the quiet bit of a NaN. -/
def quiet (x : Single) : Single := ⟨x.bits ||| 0x00400000⟩

/-- Round the magnitude to a whole number. `up` decides from the sign, the whole
part, the remainder and the unit of the remainder whether to take the next
whole magnitude. Numbers from `2 ^ 23` on and infinities stay; a NaN is made
quiet. -/
def toWhole (up : Bool → Nat → Nat → Nat → Bool) (x : Single) : Single :=
  if x.isNaN then x.quiet
  else if 150 ≤ x.exponentField then x
  else
    let unit := 2 ^ (150 - x.scale)
    let whole := x.significand / unit
    let rest := x.significand % unit
    ofSigned x.negative
      (natMagnitude (if up x.negative whole rest unit then whole + 1 else whole))

/-- Toward zero. -/
def trunc : Single → Single := toWhole fun _ _ _ _ => false

/-- Toward minus infinity. -/
def floor : Single → Single := toWhole fun negative _ rest _ => negative && rest != 0

/-- Toward plus infinity. -/
def ceil : Single → Single := toWhole fun negative _ rest _ => !negative && rest != 0

/-- To the nearest whole number, ties to even. -/
def round : Single → Single :=
  toWhole fun _ whole rest unit => unit < 2 * rest || (2 * rest == unit && whole % 2 == 1)

/-! ## Processor arithmetic -/

/-- The NaN that an operation without a numeric result delivers. -/
def invalid : Single := ⟨0xffc00000⟩

/-- The NaN of a function that checks its domain itself, before it computes. -/
def outsideDomain : Single := ⟨0x7fc00000⟩

/-- The processor's number for a pattern. -/
def toFloat32 (x : Single) : Float32 := Float32.ofBits x.bits

/-- The pattern of a processor number; every NaN becomes the given one. -/
def ofFloat32 (whenNaN : Single) (f : Float32) : Single := if f.isNaN then whenNaN else ⟨f.toBits⟩

/-- Apply a processor function; a NaN operand is returned, made quiet. -/
def apply (whenNaN : Single) (f : Float32 → Float32) (a : Single) : Single :=
  if a.isNaN then a.quiet else ofFloat32 whenNaN (f a.toFloat32)

/-- Apply a processor operation; the first NaN operand is returned, made
quiet. -/
def combine (f : Float32 → Float32 → Float32) (a b : Single) : Single :=
  if a.isNaN then a.quiet
  else if b.isNaN then b.quiet
  else ofFloat32 invalid (f a.toFloat32 b.toFloat32)

/-- Rounded sum. -/
def add : Single → Single → Single := combine (· + ·)
/-- Rounded difference. -/
def sub : Single → Single → Single := combine (· - ·)
/-- Rounded product. -/
def mul : Single → Single → Single := combine (· * ·)
/-- Rounded quotient. -/
def div : Single → Single → Single := combine (· / ·)
/-- Rounded square root. -/
def sqrt : Single → Single := apply invalid Float32.sqrt
/-- Natural exponential. -/
def exp : Single → Single := apply invalid Float32.exp
/-- Natural logarithm. -/
def ln : Single → Single := apply invalid Float32.log
/-- Logarithm to base two. -/
def log2 : Single → Single := apply invalid Float32.log2
/-- Logarithm to base ten. -/
def log10 : Single → Single := apply outsideDomain Float32.log10
/-- Power of two. -/
def exp2 : Single → Single := apply invalid Float32.exp2
/-- Sine of radians. -/
def sin : Single → Single := apply invalid Float32.sin
/-- Cosine of radians. -/
def cos : Single → Single := apply invalid Float32.cos
/-- Tangent of radians. -/
def tan : Single → Single := apply invalid Float32.tan
/-- Inverse sine. -/
def asin : Single → Single := apply outsideDomain Float32.asin
/-- Inverse cosine. -/
def acos : Single → Single := apply outsideDomain Float32.acos
/-- Inverse tangent. -/
def atan : Single → Single := apply invalid Float32.atan

end Single

end LaneGraph
