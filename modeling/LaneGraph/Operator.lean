import LaneGraph.Kind

/-!
# Operators

The operators of expression graphs, with the scalar types each accepts. An
operator is listed with its types in order of preference; vectors use the same
types component by component.
-/

namespace LaneGraph

/-- Operators with one operand. -/
inductive UnaryOp where
  | negate
  | absolute
  | saturate
  | sqrt
  | exp
  | ln
  | log2
  | log10
  | pow2
  | sin
  | cos
  | tan
  | asin
  | acos
  | atan
  | radToDeg
  | degToRad
  | round
  | floor
  | ceil
  | trunc
  | frac
  | length
  | normalize
  | bitwiseNot
  | logicalNot
  | all
  | any
  /-- Change of kind; the target is the kind of the node itself. -/
  | convert
deriving DecidableEq, Repr

/-- Operators with two operands. -/
inductive BinaryOp where
  | add
  | subtract
  | multiply
  | divide
  | modulo
  /-- Logarithm to the base given first. -/
  | log
  /-- Power of the base given first. -/
  | pow
  | min
  | max
  | dot
  | cross
  /-- Reflection of the first operand at the normal given second. -/
  | reflect
  | shiftLeft
  | shiftRight
  | bitwiseAnd
  | bitwiseXor
  | bitwiseOr
  | equal
  | notEqual
  | less
  | lessEqual
  | greater
  | greaterEqual
  | logicalAnd
  | logicalOr
deriving DecidableEq, Repr

/-- Operators with three operands. -/
inductive TernaryOp where
  /-- Value, lower bound, upper bound. -/
  | clamp
  /-- Condition, value if true, value if false. -/
  | select
  /-- Start, end, position. -/
  | lerp
  /-- First edge, second edge, position. -/
  | smoothStep
  /-- First edge, second edge, position. -/
  | smootherStep
deriving DecidableEq, Repr

/-- A scalar type of an operator. -/
structure OperatorType where
  /-- Kind of the result. -/
  result : Kind
  /-- Kinds of the operands. -/
  operands : List Kind
deriving DecidableEq, Repr

namespace OperatorType

/-- Text with one letter per kind, the result in front. -/
def text (t : OperatorType) : String :=
  String.singleton t.result.letter ++ "(" ++ String.ofList (t.operands.map Kind.letter) ++ ")"

end OperatorType

/-- The same kind for the result and `arity` operands. -/
def uniformType (arity : Nat) (kind : Kind) : OperatorType := ⟨kind, List.replicate arity kind⟩

namespace UnaryOp

/-- All operators with their names in texts. -/
def names : List (UnaryOp × String) :=
  [(negate, "Negate"), (absolute, "Absolute"), (saturate, "Saturate"), (sqrt, "Sqrt"),
   (exp, "Exp"), (ln, "Ln"), (log2, "Log2"), (log10, "Log10"), (pow2, "Pow2"), (sin, "Sin"),
   (cos, "Cos"), (tan, "Tan"), (asin, "ASin"), (acos, "ACos"), (atan, "ATan"),
   (radToDeg, "RadToDeg"), (degToRad, "DegToRad"), (round, "Round"), (floor, "Floor"),
   (ceil, "Ceil"), (trunc, "Trunc"), (frac, "Frac"), (length, "Length"),
   (normalize, "Normalize"), (bitwiseNot, "BitwiseNot"), (logicalNot, "LogicalNot"),
   (all, "All"), (any, "Any"), (convert, "TypeConversion")]

/-- Name in texts. -/
def name (op : UnaryOp) : String := (names.lookup op).getD ""

/-- The operator with a name. -/
def ofName? (s : String) : Option UnaryOp := (names.find? (·.2 == s)).map (·.1)

/-- The result has one component, whatever the operand has. -/
def reduces : UnaryOp → Bool
  | length | all | any => true
  | _ => false

/-- Accepted types, preferred first. A conversion has none: its target is fixed
when the node is made. -/
def types : UnaryOp → List OperatorType
  | negate | absolute | saturate | log2 | pow2 => [uniformType 1 .float, uniformType 1 .int]
  | bitwiseNot => [uniformType 1 .int]
  | logicalNot | all | any => [uniformType 1 .bool]
  | convert => []
  | _ => [uniformType 1 .float]

end UnaryOp

namespace BinaryOp

/-- All operators with their names in texts. -/
def names : List (BinaryOp × String) :=
  [(add, "Add"), (subtract, "Subtract"), (multiply, "Multiply"), (divide, "Divide"),
   (modulo, "Modulo"), (log, "Log"), (pow, "Pow"), (min, "Min"), (max, "Max"), (dot, "Dot"),
   (cross, "Cross"), (reflect, "Reflect"), (shiftLeft, "BitshiftLeft"),
   (shiftRight, "BitshiftRight"), (bitwiseAnd, "BitwiseAnd"), (bitwiseXor, "BitwiseXor"),
   (bitwiseOr, "BitwiseOr"), (equal, "Equal"), (notEqual, "NotEqual"), (less, "Less"),
   (lessEqual, "LessEqual"), (greater, "Greater"), (greaterEqual, "GreaterEqual"),
   (logicalAnd, "LogicalAnd"), (logicalOr, "LogicalOr")]

/-- Name in texts. -/
def name (op : BinaryOp) : String := (names.lookup op).getD ""

/-- The operator with a name. -/
def ofName? (s : String) : Option BinaryOp := (names.find? (·.2 == s)).map (·.1)

/-- Swapping the operands keeps the result. -/
def isCommutative : BinaryOp → Bool
  | add | multiply | min | max | bitwiseAnd | bitwiseXor | bitwiseOr
  | equal | notEqual | logicalAnd | logicalOr => true
  | _ => false

/-- The comparison that gives the same result with swapped operands. -/
def turned? : BinaryOp → Option BinaryOp
  | less => some greater
  | lessEqual => some greaterEqual
  | greater => some less
  | greaterEqual => some lessEqual
  | _ => none

/-- The result has one component, whatever the operands have. -/
def reduces : BinaryOp → Bool
  | dot => true
  | _ => false

/-- Accepted types, preferred first. -/
def types : BinaryOp → List OperatorType
  | log => [uniformType 2 .float]
  | shiftLeft | shiftRight | bitwiseAnd | bitwiseXor | bitwiseOr => [uniformType 2 .int]
  | equal | notEqual =>
    [⟨.bool, [.float, .float]⟩, ⟨.bool, [.int, .int]⟩, ⟨.bool, [.bool, .bool]⟩]
  | less | lessEqual | greater | greaterEqual =>
    [⟨.bool, [.float, .float]⟩, ⟨.bool, [.int, .int]⟩]
  | logicalAnd | logicalOr => [uniformType 2 .bool]
  | _ => [uniformType 2 .float, uniformType 2 .int]

end BinaryOp

namespace TernaryOp

/-- All operators with their names in texts. -/
def names : List (TernaryOp × String) :=
  [(clamp, "Clamp"), (select, "Select"), (lerp, "Lerp"), (smoothStep, "SmoothStep"),
   (smootherStep, "SmootherStep")]

/-- Name in texts. -/
def name (op : TernaryOp) : String := (names.lookup op).getD ""

/-- The operator with a name. -/
def ofName? (s : String) : Option TernaryOp := (names.find? (·.2 == s)).map (·.1)

/-- Accepted types, preferred first. -/
def types : TernaryOp → List OperatorType
  | clamp => [uniformType 3 .float, uniformType 3 .int]
  | select =>
    [⟨.float, [.bool, .float, .float]⟩, ⟨.int, [.bool, .int, .int]⟩, uniformType 3 .bool]
  | lerp | smoothStep | smootherStep => [uniformType 3 .float]

end TernaryOp

end LaneGraph
