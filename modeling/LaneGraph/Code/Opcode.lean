import LaneGraph.Arithmetic.Integer
import LaneGraph.Kind
import LaneGraph.Lanes

/-!
# Opcodes

An opcode applies a function to one register, an operation to two registers or
to a register and a constant, or moves values between registers, constants and
streams. The word of an opcode is its position in the list of all opcodes.
-/

namespace LaneGraph

/-- Functions of one lane. The last letter of a name is the kind of the operand:
number, integer or boolean. -/
inductive LaneFunction where
  | absF | absI | sqrtF | expF | lnF | log2F | log2I | log10F | pow2F
  | sinF | cosF | tanF | asinF | acosF | atanF
  | roundF | floorF | ceilF | truncF
  | notB | notI
  | intToFloat | floatToInt
deriving DecidableEq, Repr

/-- Operations on two lanes. The last letter of a name is the kind of the
operands. -/
inductive LaneOperation where
  | addF | addI | subF | subI | mulF | mulI | divF | divI
  | minF | minI | maxF | maxI
  | shlI | shrI | andI | xorI | orI
  | eqF | eqI | eqB | neqF | neqI | neqB
  | ltF | ltI | leqF | leqI | gtF | gtI | geqF | geqI
  | andB | orB
deriving DecidableEq, Repr

namespace LaneFunction

/-- All functions in the order of their words, with their names in listings. -/
def names : List (LaneFunction × String) :=
  [(absF, "AbsF"), (absI, "AbsI"), (sqrtF, "SqrtF"), (expF, "ExpF"), (lnF, "LnF"),
   (log2F, "Log2F"), (log2I, "Log2I"), (log10F, "Log10F"), (pow2F, "Pow2F"), (sinF, "SinF"),
   (cosF, "CosF"), (tanF, "TanF"), (asinF, "ASinF"), (acosF, "ACosF"), (atanF, "ATanF"),
   (roundF, "RoundF"), (floorF, "FloorF"), (ceilF, "CeilF"), (truncF, "TruncF"),
   (notB, "NotB"), (notI, "NotI"), (intToFloat, "IToF"), (floatToInt, "FToI")]

/-- Name in listings. -/
def name (f : LaneFunction) : String := (names.lookup f).getD ""

/-- The kind of the operand. -/
def operandKind : LaneFunction → Kind
  | absI | log2I | notI | intToFloat => .int
  | notB => .bool
  | _ => .float

/-- The function on lane patterns. -/
def eval : LaneFunction → UInt32 → UInt32
  | absF => Pattern.ofFloat Single.abs
  | absI => Pattern.ofInt Integer.abs
  | sqrtF => Pattern.ofFloat Single.sqrt
  | expF => Pattern.ofFloat Single.exp
  | lnF => Pattern.ofFloat Single.ln
  | log2F => Pattern.ofFloat Single.log2
  | log2I => Pattern.ofInt Integer.log2
  | log10F => Pattern.ofFloat Single.log10
  | pow2F => Pattern.ofFloat Single.exp2
  | sinF => Pattern.ofFloat Single.sin
  | cosF => Pattern.ofFloat Single.cos
  | tanF => Pattern.ofFloat Single.tan
  | asinF => Pattern.ofFloat Single.asin
  | acosF => Pattern.ofFloat Single.acos
  | atanF => Pattern.ofFloat Single.atan
  | roundF => Pattern.ofFloat Single.round
  | floorF => Pattern.ofFloat Single.floor
  | ceilF => Pattern.ofFloat Single.ceil
  | truncF => Pattern.ofFloat Single.trunc
  | notB => Pattern.ofBool not
  | notI => Pattern.ofInt (~~~ ·)
  | intToFloat => Pattern.ofIntToFloat Single.ofInt32
  | floatToInt => Pattern.ofFloatToInt Single.toInt32

end LaneFunction

namespace LaneOperation

/-- All operations in the order of their words, with their names in listings. -/
def names : List (LaneOperation × String) :=
  [(addF, "AddF"), (addI, "AddI"), (subF, "SubF"), (subI, "SubI"), (mulF, "MulF"),
   (mulI, "MulI"), (divF, "DivF"), (divI, "DivI"), (minF, "MinF"), (minI, "MinI"),
   (maxF, "MaxF"), (maxI, "MaxI"), (shlI, "ShlI"), (shrI, "ShrI"), (andI, "AndI"),
   (xorI, "XorI"), (orI, "OrI"), (eqF, "EqF"), (eqI, "EqI"), (eqB, "EqB"), (neqF, "NEqF"),
   (neqI, "NEqI"), (neqB, "NEqB"), (ltF, "LtF"), (ltI, "LtI"), (leqF, "LEqF"),
   (leqI, "LEqI"), (gtF, "GtF"), (gtI, "GtI"), (geqF, "GEqF"), (geqI, "GEqI"),
   (andB, "AndB"), (orB, "OrB")]

/-- Name in listings. -/
def name (o : LaneOperation) : String := (names.lookup o).getD ""

/-- The kind of the operands. -/
def operandKind : LaneOperation → Kind
  | addF | subF | mulF | divF | minF | maxF | eqF | neqF | ltF | leqF | gtF | geqF => .float
  | eqB | neqB | andB | orB => .bool
  | _ => .int

/-- The operation on lane patterns. -/
def eval : LaneOperation → UInt32 → UInt32 → UInt32
  | addF => Pattern.ofFloats Single.add
  | addI => Pattern.ofInts (· + ·)
  | subF => Pattern.ofFloats Single.sub
  | subI => Pattern.ofInts (· - ·)
  | mulF => Pattern.ofFloats Single.mul
  | mulI => Pattern.ofInts (· * ·)
  | divF => Pattern.ofFloats Single.div
  | divI => Pattern.ofInts (· / ·)
  | minF => Pattern.ofFloats Single.min
  | minI => Pattern.ofInts Integer.min
  | maxF => Pattern.ofFloats Single.max
  | maxI => Pattern.ofInts Integer.max
  | shlI => Pattern.ofInts (· <<< ·)
  | shrI => Pattern.ofInts (· >>> ·)
  | andI => Pattern.ofInts (· &&& ·)
  | xorI => Pattern.ofInts (· ^^^ ·)
  | orI => Pattern.ofInts (· ||| ·)
  | eqF => Pattern.ofFloatTest Single.eq
  | eqI => Pattern.ofIntTest (· == ·)
  | eqB => Pattern.ofBools (· == ·)
  | neqF => Pattern.ofFloatTest fun a b => !a.eq b
  | neqI => Pattern.ofIntTest (· != ·)
  | neqB => Pattern.ofBools (· != ·)
  | ltF => Pattern.ofFloatTest Single.lt
  | ltI => Pattern.ofIntTest fun a b => a < b
  | leqF => Pattern.ofFloatTest Single.le
  | leqI => Pattern.ofIntTest fun a b => a ≤ b
  | gtF => Pattern.ofFloatTest fun a b => b.lt a
  | gtI => Pattern.ofIntTest fun a b => b < a
  | geqF => Pattern.ofFloatTest fun a b => b.le a
  | geqI => Pattern.ofIntTest fun a b => b ≤ a
  | andB => Pattern.ofBools and
  | orB => Pattern.ofBools or

end LaneOperation

/-- What a choice moves. All choices move bare patterns; the kind is for
listings. -/
inductive Choice where
  | float
  | int
  | bool
deriving DecidableEq, Repr

/-- What a load or store moves: numbers, or integers and booleans. -/
inductive Transfer where
  | float
  | int
deriving DecidableEq, Repr

/-- The kind of a choice. -/
def Choice.kind : Choice → Kind
  | float => .float
  | int => .int
  | bool => .bool

/-- The kind of a transfer. -/
def Transfer.kind : Transfer → Kind
  | float => .float
  | int => .int

/-- What an instruction does. -/
inductive Opcode where
  /-- A function of one register. -/
  | function (f : LaneFunction)
  /-- An operation on two registers, or on a register and a constant. -/
  | operation (o : LaneOperation) (constant : Bool)
  /-- A choice between two registers by a third. -/
  | select (c : Choice)
  /-- A constant into a register. -/
  | move
  /-- A stream into a register. -/
  | load (t : Transfer)
  /-- A register into a stream. -/
  | store (t : Transfer)
  /-- A constant into a stream. -/
  | storeConst (t : Transfer)
  /-- A native function. -/
  | call
deriving DecidableEq, Repr

/-- The words that follow an opcode. -/
inductive Layout where
  /-- Result, operand. -/
  | unary
  /-- Result, left, right. -/
  | binary
  /-- Result, left, constant. -/
  | binaryConst
  /-- Result, condition, two values. -/
  | ternary
  /-- Result, constant. -/
  | moveConst
  /-- Result, input slot. -/
  | load
  /-- Output slot, register. -/
  | store
  /-- Output slot, constant. -/
  | storeConst
  /-- Function slot, result, argument count, arguments. -/
  | call
deriving DecidableEq, Repr

/-- Name in texts. -/
def Layout.name : Layout → String
  | unary => "Unary"
  | binary => "Binary"
  | binaryConst => "BinaryConst"
  | ternary => "Ternary"
  | moveConst => "MovConst"
  | load => "Load"
  | store => "Store"
  | storeConst => "StoreConst"
  | call => "Call"

/-- How many words follow; a call says so itself. -/
def Layout.fixedOperands? : Layout → Option Nat
  | unary | moveConst | load | store | storeConst => some 2
  | binary | binaryConst => some 3
  | ternary => some 4
  | call => none

namespace Opcode

/-- All opcodes in the order of their words. -/
def all : List Opcode :=
  LaneFunction.names.map (fun p => function p.1) ++
  LaneOperation.names.flatMap (fun p => [operation p.1 false, operation p.1 true]) ++
  [select .float, select .int, select .bool, move, load .float, load .int,
   store .float, store .int, storeConst .float, storeConst .int, call]

/-- The word of an opcode. -/
def word (op : Opcode) : UInt32 := UInt32.ofNat (all.idxOf op)

/-- The opcode of a word. -/
def ofWord? (w : UInt32) : Option Opcode := all[w.toNat]?

/-- Name in listings. -/
def mnemonic : Opcode → String
  | function f => f.name ++ "_R"
  | operation o false => o.name ++ "_RR"
  | operation o true => o.name ++ "_RC"
  | select .float => "SelF_RRR"
  | select .int => "SelI_RRR"
  | select .bool => "SelB_RRR"
  | move => "MovX_C"
  | load .float => "LoadF"
  | load .int => "LoadI"
  | store .float => "StoreF"
  | store .int => "StoreI"
  | storeConst .float => "StoreF_C"
  | storeConst .int => "StoreI_C"
  | call => "Call"

/-- The opcode with a name. -/
def ofMnemonic? (s : String) : Option Opcode := all.find? (·.mnemonic == s)

/-- The words that follow. -/
def layout : Opcode → Layout
  | function _ => .unary
  | operation _ false => .binary
  | operation _ true => .binaryConst
  | select _ => .ternary
  | move => .moveConst
  | load _ => .load
  | store _ => .store
  | storeConst _ => .storeConst
  | call => .call

/-- The kind of operands and constants; unknown for bare patterns and calls. -/
def operandKind : Opcode → Kind
  | function f => f.operandKind
  | operation o _ => o.operandKind
  | select c => c.kind
  | load t | store t | storeConst t => t.kind
  | move | call => .unknown

/-- The form of an operation that takes a constant on the right. -/
def constForm? : Opcode → Option Opcode
  | operation o false => some (operation o true)
  | _ => none

end Opcode

end LaneGraph
