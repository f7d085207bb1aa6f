import LaneGraph.Decimal.Shortest

/-!
# Documents

Settings, types and programs are exchanged as JSON documents. A number without
a fraction and without an exponent is an integer if it fits in 64 bits; every
other number is a decimal, and so is minus zero. A record keeps its fields in
the order in which they were written.
-/

namespace LaneGraph

/-- A JSON value. -/
inductive Document where
  | null
  | bool (value : Bool)
  | integer (value : Int)
  /-- A number with a sign of its own. -/
  | decimal (negative : Bool) (magnitude : Decimal)
  | text (value : String)
  | list (items : List Document)
  | record (fields : List (String × Document))
deriving Repr, Inhabited

namespace Document

/-- The field of a record. -/
def field? (name : String) : Document → Option Document
  | record fields => fields.lookup name
  | _ => none

/-- The truth value. -/
def bool? : Document → Option Bool
  | bool b => some b
  | _ => none

/-- The integer. -/
def integer? : Document → Option Int
  | integer n => some n
  | _ => none

/-- The integer, if it is not negative and below a bound. -/
def natBelow? (bound : Nat) : Document → Option Nat
  | integer (.ofNat n) => if n < bound then some n else none
  | _ => none

/-- The text. -/
def text? : Document → Option String
  | text s => some s
  | _ => none

/-- The items of a list. -/
def list? : Document → Option (List Document)
  | list items => some items
  | _ => none

/-- A list of texts. -/
def texts (items : List String) : Document := list (items.map text)

/-- A list of natural numbers. -/
def naturals (items : List Nat) : Document := list (items.map fun n : Nat => integer n)

end Document

end LaneGraph
