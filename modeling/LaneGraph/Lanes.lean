import LaneGraph.Decimal.Text

/-!
# Four-lane registers

A register holds four 32-bit lanes, one per instance of a batch. Lanes are
patterns; each instruction decides whether it reads numbers, integers or
booleans. A true boolean is all ones, so that it can serve as a mask, and every
pattern except zero counts as true.
-/

namespace LaneGraph

/-- Instances in one batch. -/
abbrev laneCount : Nat := 4

/-- The pattern of a boolean lane. -/
def boolBits (b : Bool) : UInt32 := if b then 0xffffffff else 0

/-- The boolean of a lane. -/
def bitsBool (w : UInt32) : Bool := w != 0

/-- A register of four lanes. -/
structure Lanes where
  /-- The lanes in instance order. -/
  words : Vector UInt32 4
deriving DecidableEq, Repr

namespace Lanes

/-- The same pattern in every lane. -/
def splat (w : UInt32) : Lanes := ⟨Vector.replicate 4 w⟩

/-- All lanes zero. -/
def zero : Lanes := splat 0

instance : Inhabited Lanes := ⟨zero⟩

/-- Lanes computed from their positions. -/
def ofFn (f : Fin 4 → UInt32) : Lanes := ⟨Vector.ofFn f⟩

/-- Lanes listed in instance order; there have to be four. -/
def ofList? : List UInt32 → Option Lanes
  | [a, b, c, d] => some ⟨#v[a, b, c, d]⟩
  | _ => none

/-- The pattern of one lane. -/
def get (r : Lanes) (lane : Fin 4) : UInt32 := r.words[lane]

/-- Apply a function of patterns lane by lane. -/
def map (f : UInt32 → UInt32) (r : Lanes) : Lanes := ⟨r.words.map f⟩

/-- Combine two registers lane by lane. -/
def zip (f : UInt32 → UInt32 → UInt32) (a b : Lanes) : Lanes :=
  ⟨Vector.zipWith f a.words b.words⟩

/-- Where the mask is set take the first register, elsewhere the second. -/
def select (mask ifSet ifClear : Lanes) : Lanes :=
  ofFn fun i => if bitsBool (mask.get i) then ifSet.get i else ifClear.get i

/-- The lanes in one line. -/
def describe (r : Lanes) : String :=
  "Register([" ++ String.intercalate ", " (r.words.toList.map Hex.word32) ++ "])"

end Lanes

/-! ## Functions of values as functions of patterns -/

namespace Pattern

/-- A function of numbers. -/
def ofFloat (f : Single → Single) (a : UInt32) : UInt32 := (f ⟨a⟩).bits

/-- A function of integers. -/
def ofInt (f : Int32 → Int32) (a : UInt32) : UInt32 := (f a.toInt32).toUInt32

/-- A function of booleans. -/
def ofBool (f : Bool → Bool) (a : UInt32) : UInt32 := boolBits (f (bitsBool a))

/-- A function from numbers to integers. -/
def ofFloatToInt (f : Single → Int32) (a : UInt32) : UInt32 := (f ⟨a⟩).toUInt32

/-- A function from integers to numbers. -/
def ofIntToFloat (f : Int32 → Single) (a : UInt32) : UInt32 := (f a.toInt32).bits

/-- An operation on numbers. -/
def ofFloats (f : Single → Single → Single) (a b : UInt32) : UInt32 := (f ⟨a⟩ ⟨b⟩).bits

/-- An operation on integers. -/
def ofInts (f : Int32 → Int32 → Int32) (a b : UInt32) : UInt32 :=
  (f a.toInt32 b.toInt32).toUInt32

/-- An operation on booleans. -/
def ofBools (f : Bool → Bool → Bool) (a b : UInt32) : UInt32 :=
  boolBits (f (bitsBool a) (bitsBool b))

/-- A comparison of numbers. -/
def ofFloatTest (f : Single → Single → Bool) (a b : UInt32) : UInt32 := boolBits (f ⟨a⟩ ⟨b⟩)

/-- A comparison of integers. -/
def ofIntTest (f : Int32 → Int32 → Bool) (a b : UInt32) : UInt32 :=
  boolBits (f a.toInt32 b.toInt32)

end Pattern

end LaneGraph
