/-!
# Kinds and shapes of values

A computed value is a boolean, an integer or a single-precision number, in one
to four components. A node whose type is not known yet has the unknown shape,
which has no components.

A native function is described by its name, the kinds it takes and the kind it
returns. Functions may share a name; the symbol adds one letter per input and
tells them apart.
-/

namespace LaneGraph

/-- What a value is. The order unknown, bool, int, float is the widening
order. -/
inductive Kind where
  | unknown
  | bool
  | int
  | float
deriving DecidableEq, Repr, Inhabited

namespace Kind

/-- Place in the widening order. -/
def level : Kind → Nat
  | unknown => 0
  | bool => 1
  | int => 2
  | float => 3

/-- Name in texts. -/
def name : Kind → String
  | unknown => "unknown"
  | bool => "bool"
  | int => "int"
  | float => "float"

/-- One-letter tag in function symbols. -/
def letter : Kind → Char
  | unknown => 'U'
  | bool => 'B'
  | int => 'I'
  | float => 'F'

/-- All kinds in widening order. -/
def all : List Kind := [unknown, bool, int, float]

/-- The kind with a name. -/
def ofName? (s : String) : Option Kind := all.find? (·.name == s)

/-- The kind with a tag. -/
def ofLetter? (c : Char) : Option Kind := all.find? (·.letter == c)

end Kind

/-- A name that may be followed by a count, with the count; it is one if it is
left out. -/
def splitCount (s : String) : String × Nat :=
  let (letters, digits) := s.toList.span (!·.isDigit)
  let count := digits.foldl (fun n c => 10 * n + (c.toNat - 48)) 0
  (String.ofList letters, if digits.isEmpty then 1 else count)

/-- A kind with a number of components. -/
structure Shape where
  /-- What each component is. -/
  kind : Kind
  /-- How many components there are. -/
  width : Nat
deriving DecidableEq, Repr, Inhabited

namespace Shape

/-- The shape of an unresolved node. -/
def unknown : Shape := ⟨.unknown, 0⟩

/-- A shape with its width brought into one to four. An unknown kind always has
the unknown shape. -/
def of (kind : Kind) (width : Nat) : Shape :=
  if kind = .unknown then unknown else ⟨kind, max 1 (min width 4)⟩

/-- One boolean. -/
def bool : Shape := ⟨.bool, 1⟩
/-- One integer. -/
def int : Shape := ⟨.int, 1⟩
/-- One number. -/
def float : Shape := ⟨.float, 1⟩

/-- The kind is not known. -/
def isUnknown (s : Shape) : Bool := s.kind = .unknown

/-- There is exactly one component. -/
def isScalar (s : Shape) : Bool := s.width = 1

/-- The same kind with another width. -/
def withWidth (s : Shape) (width : Nat) : Shape := of s.kind width

/-- The same kind with one component. -/
def scalar (s : Shape) : Shape := s.withWidth 1

/-- Name in texts: the kind, followed by the width if it is above one. -/
def name (s : Shape) : String :=
  if s.width ≤ 1 then s.kind.name else s.kind.name ++ toString s.width

/-- The shape with a name. -/
def ofName? (s : String) : Option Shape :=
  let (name, width) := splitCount s
  (Kind.ofName? name).map fun kind => of kind width

end Shape

/-- A component of a vector. -/
inductive Component where
  | x
  | y
  | z
  | w
deriving DecidableEq, Repr, Inhabited

namespace Component

/-- All components in order. -/
def all : List Component := [x, y, z, w]

/-- Position, from zero. -/
def index : Component → Nat
  | x => 0
  | y => 1
  | z => 2
  | w => 3

/-- The component at a position, taken modulo four. -/
def ofIndex (i : Nat) : Component :=
  match i % 4 with
  | 0 => x
  | 1 => y
  | 2 => z
  | _ => w

/-- Letter in texts. -/
def letter : Component → Char
  | x => 'x'
  | y => 'y'
  | z => 'z'
  | w => 'w'

/-- The component named by a coordinate letter or by a colour letter. -/
def ofLetter? : Char → Option Component
  | 'x' | 'r' => some x
  | 'y' | 'g' => some y
  | 'z' | 'b' => some z
  | 'w' | 'a' => some w
  | _ => none

end Component

/-- What a native function takes and returns. -/
structure Signature where
  /-- The name in source graphs. -/
  name : String
  /-- Kinds of the inputs, in order. -/
  inputs : List Kind
  /-- Kind of the result. -/
  output : Kind
  /-- How many inputs must be supplied; the rest may be left out. The count is
  kept in one byte. -/
  required : Nat
deriving DecidableEq, Repr, Inhabited

namespace Signature

/-- The number of inputs as it fits in one byte. -/
def inputCountByte (inputs : List Kind) : Nat := inputs.length % 256

/-- A signature whose inputs are all required. -/
def ofInputs (name : String) (inputs : List Kind) (output : Kind) : Signature :=
  ⟨name, inputs, output, inputCountByte inputs⟩

/-- Make the inputs after the first `count` optional. -/
def withRequired (s : Signature) (count : Nat) : Signature :=
  { s with required := min count (inputCountByte s.inputs) }

/-- Name, underscore and one letter per input. -/
def symbol (s : Signature) : String :=
  s.name ++ "_" ++ String.ofList (s.inputs.map Kind.letter)

end Signature

end LaneGraph
