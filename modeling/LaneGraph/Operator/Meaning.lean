import LaneGraph.Arithmetic.Composite
import LaneGraph.Arithmetic.Integer
import LaneGraph.Literal
import LaneGraph.Operator

/-!
# Meaning of operators on literals

The value of an operator applied to scalar literals. An operator has a value
only on the kinds it accepts; operators that exist for vectors alone have none.
-/

namespace LaneGraph

namespace UnaryOp

/-- The function of numbers that an operator stands for. -/
def onFloat? : UnaryOp → Option (Single → Single)
  | negate => some Single.neg
  | absolute => some Single.abs
  | saturate => some Single.saturate
  | sqrt => some Single.sqrt
  | exp => some Single.exp
  | ln => some Single.ln
  | log2 => some Single.log2
  | log10 => some Single.log10
  | pow2 => some Single.exp2
  | sin => some Single.sin
  | cos => some Single.cos
  | tan => some Single.tan
  | asin => some Single.asin
  | acos => some Single.acos
  | atan => some Single.atan
  | radToDeg => some Single.radToDeg
  | degToRad => some Single.degToRad
  | round => some Single.round
  | floor => some Single.floor
  | ceil => some Single.ceil
  | trunc => some Single.trunc
  | frac => some Single.frac
  | _ => none

/-- The function of integers that an operator stands for. -/
def onInt? : UnaryOp → Option (Int32 → Int32)
  | negate => some Integer.neg
  | absolute => some Integer.abs
  | saturate => some Integer.saturate
  | log2 => some Integer.log2
  | pow2 => some Integer.pow2
  | bitwiseNot => some (~~~ ·)
  | _ => none

/-- The function of booleans that an operator stands for. One boolean is its own
conjunction and disjunction. -/
def onBool? : UnaryOp → Option (Bool → Bool)
  | logicalNot => some not
  | all | any => some id
  | _ => none

/-- The value of an operator; `target` is the kind a conversion leads to. -/
def eval? (op : UnaryOp) (target : Kind) (v : Scalar) : Option Scalar :=
  match op, v with
  | convert, v => v.convert? target
  | op, .bool b => op.onBool?.map fun f => .bool (f b)
  | op, .int n => op.onInt?.map fun f => .int (f n)
  | op, .float x => op.onFloat?.map fun f => .float (f x)

end UnaryOp

namespace BinaryOp

/-- The operation on numbers that an operator stands for. -/
def onFloats? : BinaryOp → Option (Single → Single → Single)
  | add => some Single.add
  | subtract => some Single.sub
  | multiply => some Single.mul
  | divide => some Single.div
  | modulo => some Single.modulo
  | log => some Single.log
  | pow => some Single.pow
  | min => some Single.min
  | max => some Single.max
  | _ => none

/-- The operation on integers that an operator stands for. -/
def onInts? : BinaryOp → Option (Int32 → Int32 → Int32)
  | add => some (· + ·)
  | subtract => some (· - ·)
  | multiply => some (· * ·)
  | divide => some (· / ·)
  | modulo => some Integer.modulo
  | pow => some Integer.pow
  | min => some Integer.min
  | max => some Integer.max
  | shiftLeft => some (· <<< ·)
  | shiftRight => some (· >>> ·)
  | bitwiseAnd => some (· &&& ·)
  | bitwiseXor => some (· ^^^ ·)
  | bitwiseOr => some (· ||| ·)
  | _ => none

/-- The operation on booleans that an operator stands for. -/
def onBools? : BinaryOp → Option (Bool → Bool → Bool)
  | equal => some (· == ·)
  | notEqual => some (· != ·)
  | logicalAnd => some and
  | logicalOr => some or
  | _ => none

/-- The comparison of numbers that an operator stands for. -/
def testFloats? : BinaryOp → Option (Single → Single → Bool)
  | equal => some Single.eq
  | notEqual => some fun a b => !a.eq b
  | less => some Single.lt
  | lessEqual => some Single.le
  | greater => some fun a b => b.lt a
  | greaterEqual => some fun a b => b.le a
  | _ => none

/-- The comparison of integers that an operator stands for. -/
def testInts? : BinaryOp → Option (Int32 → Int32 → Bool)
  | equal => some (· == ·)
  | notEqual => some (· != ·)
  | less => some fun a b => a < b
  | lessEqual => some fun a b => a ≤ b
  | greater => some fun a b => b < a
  | greaterEqual => some fun a b => b ≤ a
  | _ => none

/-- The value of an operator on two literals of one kind. -/
def eval? (op : BinaryOp) : Scalar → Scalar → Option Scalar
  | .bool a, .bool b => op.onBools?.map fun f => .bool (f a b)
  | .int a, .int b =>
    (op.onInts?.map fun f => .int (f a b)).or (op.testInts?.map fun f => .bool (f a b))
  | .float a, .float b =>
    (op.onFloats?.map fun f => .float (f a b)).or (op.testFloats?.map fun f => .bool (f a b))
  | _, _ => none

end BinaryOp

namespace TernaryOp

/-- The value of an operator on three literals. A choice is not evaluated here:
it needs only its condition. -/
def eval? : TernaryOp → Scalar → Scalar → Scalar → Option Scalar
  | clamp, .int v, .int low, .int high => some (.int (Integer.clamp v low high))
  | clamp, .float v, .float low, .float high => some (.float (Single.clamp v low high))
  | lerp, .float a, .float b, .float s => some (.float (Single.lerp a b s))
  | smoothStep, .float e0, .float e1, .float x => some (.float (Single.smoothStep e0 e1 x))
  | smootherStep, .float e0, .float e1, .float x => some (.float (Single.smootherStep e0 e1 x))
  | _, _, _, _ => none

end TernaryOp

end LaneGraph
