import LaneGraph.Kind

/-!
# Stream formats

A stream is an external buffer of elements. Its format says how one element is
encoded and how many components make up one value; a channel adds the name under
which a program reads or writes it.
-/

namespace LaneGraph

/-- How one element is stored. -/
inductive Encoding where
  | half
  | float
  | byte
  | short
  | int
deriving DecidableEq, Repr, Inhabited

namespace Encoding

/-- Bytes of one element. -/
def size : Encoding → Nat
  | byte => 1
  | half | short => 2
  | float | int => 4

/-- The kind an element has once loaded. -/
def kind : Encoding → Kind
  | half | float => .float
  | byte | short | int => .int

/-- Name in texts. -/
def name : Encoding → String
  | half => "half"
  | float => "float"
  | byte => "byte"
  | short => "short"
  | int => "int"

/-- All encodings. -/
def all : List Encoding := [half, float, byte, short, int]

/-- The encoding with a name. -/
def ofName? (s : String) : Option Encoding := all.find? (·.name == s)

end Encoding

/-- An encoding with a number of components. -/
structure Format where
  /-- How one component is stored. -/
  encoding : Encoding
  /-- How many components one value has. -/
  count : Nat
deriving DecidableEq, Repr, Inhabited

namespace Format

/-- A format with its component count brought into one to four. -/
def of (encoding : Encoding) (count : Nat) : Format := ⟨encoding, max 1 (min count 4)⟩

/-- Bytes of one whole value. -/
def size (f : Format) : Nat := f.encoding.size * f.count

/-- The one-component format of the same encoding. -/
def scalar (f : Format) : Format := of f.encoding 1

/-- The shape of a loaded value. -/
def shape (f : Format) : Shape := Shape.of f.encoding.kind f.count

/-- Name in texts: the encoding, followed by the count unless it is one. -/
def name (f : Format) : String :=
  if f.count = 1 then f.encoding.name else f.encoding.name ++ toString f.count

/-- The format with a name. -/
def ofName? (s : String) : Option Format :=
  let (name, count) := splitCount s
  (Encoding.ofName? name).map fun encoding => of encoding count

end Format

/-- A named stream. -/
structure Channel where
  /-- The name that binds the stream. -/
  name : String
  /-- How its values are stored. -/
  format : Format
deriving DecidableEq, Repr, Inhabited

namespace Channel

/-- Format and name. -/
def describe (c : Channel) : String := c.format.name ++ " " ++ c.name

/-- The one-component stream that carries component `c` of a vector stream. -/
def component (channel : Channel) (c : Component) : Channel :=
  ⟨channel.name ++ "." ++ String.singleton c.letter, channel.format.scalar⟩

end Channel

end LaneGraph
