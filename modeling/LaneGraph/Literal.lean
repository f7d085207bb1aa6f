import LaneGraph.Decimal.Text
import LaneGraph.Kind
import LaneGraph.Lanes

/-!
# Scalars and constants

A scalar is one typed literal. A constant is a literal of up to four components
of one kind, kept as lane patterns so that constants compare bit by bit: the
two zeros differ and a NaN equals itself.
-/

namespace LaneGraph

/-- One typed literal. -/
inductive Scalar where
  | bool (value : Bool)
  | int (value : Int32)
  | float (value : Single)
deriving DecidableEq, Repr

namespace Scalar

/-- The kind of a literal. -/
def kind : Scalar → Kind
  | bool _ => .bool
  | int _ => .int
  | float _ => .float

/-- The lane pattern of a literal. -/
def bits : Scalar → UInt32
  | bool b => boolBits b
  | int n => n.toUInt32
  | float x => x.bits

/-- The literal of a known kind with a given lane pattern. -/
def ofBits? : Kind → UInt32 → Option Scalar
  | .unknown, _ => none
  | .bool, w => some (bool (bitsBool w))
  | .int, w => some (int w.toInt32)
  | .float, w => some (float ⟨w⟩)

/-- Zero, or false. -/
def zero? (k : Kind) : Option Scalar := ofBits? k 0

/-- One, or true. -/
def one? : Kind → Option Scalar
  | .unknown => none
  | .bool => some (bool true)
  | .int => some (int 1)
  | .float => some (float 1)

/-- Convert to another kind: true is one, and everything but zero is true. -/
def convert? : Scalar → Kind → Option Scalar
  | _, .unknown => none
  | bool b, .bool => some (bool b)
  | bool b, .int => some (int (if b then 1 else 0))
  | bool b, .float => some (float (if b then 1 else 0))
  | int n, .bool => some (bool (n != 0))
  | int n, .int => some (int n)
  | int n, .float => some (float (Single.ofInt32 n))
  | float x, .bool => some (bool (!x.eq 0))
  | float x, .int => some (int x.toInt32)
  | float x, .float => some (float x)

/-- The literal is zero or false; both float zeros count. -/
def isZero : Scalar → Bool
  | bool b => !b
  | int n => n == 0
  | float x => x.eq 0

/-- The literal is one or true. -/
def isOne : Scalar → Bool
  | bool b => b
  | int n => n == 1
  | float x => x.eq 1

/-- The literal is a number with the value `n`. -/
def isValue (s : Scalar) (n : Int32) : Bool :=
  match s with
  | bool _ => false
  | int m => m == n
  | float x => x.eq (Single.ofInt32 n)

/-- The text of a literal. -/
def text : Scalar → String
  | bool b => if b then "true" else "false"
  | int n => toString n.toInt
  | float x => x.literal

end Scalar

/-- A literal of up to four components. -/
structure Constant where
  /-- The kind of every component. -/
  kind : Kind
  /-- The lane patterns of the components. -/
  bits : List UInt32
deriving DecidableEq, Repr

namespace Constant

/-- A constant from lane patterns; those after the fourth are dropped. -/
def ofBits (kind : Kind) (bits : List UInt32) : Constant := ⟨kind, bits.take 4⟩

/-- A one-component constant. -/
def ofScalar (s : Scalar) : Constant := ⟨s.kind, [s.bits]⟩

/-- The number of components. -/
def count (c : Constant) : Nat := c.bits.length

/-- The kind is known and there is at least one component. -/
def isValid (c : Constant) : Bool := c.kind ≠ .unknown && 1 ≤ c.count && c.count ≤ 4

/-- The shape of a valid constant; any other has the unknown shape. -/
def shape (c : Constant) : Shape := if c.isValid then Shape.of c.kind c.count else Shape.unknown

/-- One component as a literal. -/
def component? (c : Constant) (i : Component) : Option Scalar :=
  (c.bits[i.index]?).bind (Scalar.ofBits? c.kind)

/-- The literal of a one-component constant. -/
def scalar? (c : Constant) : Option Scalar :=
  match c.bits with
  | [w] => Scalar.ofBits? c.kind w
  | _ => none

end Constant

end LaneGraph
