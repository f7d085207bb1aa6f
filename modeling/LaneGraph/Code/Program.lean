import LaneGraph.Code.Encoded
import LaneGraph.Decimal.Text

/-!
# Programs and their listings

A program is a code stream with the tables its slots refer to. A listing shows
the tables and one line per instruction.

A line ends with a line feed. A carriage return right before the line feed
belongs to the line end. Characters after the last line end form one more line;
a text that stops at a line end has no empty line after it.
-/

namespace LaneGraph

namespace Lines

/-- Drop a carriage return from a line whose characters are listed last first. -/
def withoutReturn : List Char → List Char
  | '\r' :: line => line
  | line => line

/-- Cut characters into lines. The characters of the current line that were read
already are listed last first. -/
def cut (line : List Char) : List Char → List String
  | [] => if line.isEmpty then [] else [String.ofList line.reverse]
  | c :: rest =>
    if c = '\n' then String.ofList (withoutReturn line).reverse :: cut [] rest
    else cut (c :: line) rest

/-- The lines of a text. -/
def ofText (s : String) : List String := cut [] s.toList

/-- The text of some rows, each followed by a line feed. A row that holds line
feeds of its own takes up several lines of the text. -/
def text (rows : List String) : String := String.join (rows.map (· ++ "\n"))

end Lines

/-- A code stream with its tables. -/
structure Program where
  /-- The code words. -/
  code : List UInt32 := []
  /-- Input streams by slot. -/
  inputs : List Channel := []
  /-- Output streams by slot. -/
  outputs : List Channel := []
  /-- Native functions by slot. -/
  functions : List Signature := []
  /-- How many instructions the code is said to have. -/
  instructionCount : Nat := 0
  /-- How many registers a batch needs. -/
  registerCount : Nat := 0
deriving DecidableEq, Repr, Inhabited

namespace Program

/-- The instructions of the code. -/
def instructions (p : Program) : List (Except MachineError Encoded) := Encoded.readAll p.code

/-- A register in listings. -/
def registerText (w : UInt32) : String := "r" ++ toString w.toNat

/-- A constant of a given kind in listings. -/
def constantText : Kind → UInt32 → String
  | .float, w => (Single.mk w).literal
  | .int, w => toString w.toInt32.toInt
  | .bool, w => if bitsBool w then "true" else "false"
  | .unknown, w => Hex.word32 w

/-- The name of a slot in listings; a slot outside its table has none. -/
def channelText (channels : List Channel) (slot : UInt32) : String :=
  ((channels[slot.toNat]?).map (·.name)).getD "?"

/-- The operands of an instruction in listings. -/
def operandsText (p : Program) (i : Encoded) : String :=
  let kind := i.opcode.operandKind
  match i.opcode.layout, i.operands with
  | .binaryConst, [r, a, c] =>
    registerText r ++ ", " ++ registerText a ++ ", " ++ constantText kind c
  | .moveConst, [r, c] => registerText r ++ ", " ++ constantText kind c
  | .load, [r, input] => registerText r ++ ", " ++ channelText p.inputs input
  | .store, [output, r] => channelText p.outputs output ++ ", " ++ registerText r
  | .storeConst, [output, c] => channelText p.outputs output ++ ", " ++ constantText kind c
  | .call, function :: r :: _ :: arguments =>
    let symbol := ((p.functions[function.toNat]?).map Signature.symbol).getD "?"
    registerText r ++ ", " ++ symbol ++ "(" ++
      String.intercalate ", " (arguments.map registerText) ++ ")"
  | _, registers => String.intercalate ", " (registers.map registerText)

/-- Fill a text with blanks on the right up to a width. -/
def padRight (width : Nat) (s : String) : String :=
  s ++ String.ofList (List.replicate (width - s.length) ' ')

/-- The line of one instruction. -/
def line (p : Program) : Except MachineError Encoded → String
  | .error e => "; " ++ e.message
  | .ok i =>
    Single.zeroPadded 4 i.offset ++ " " ++ padRight 9 i.opcode.mnemonic ++ " " ++
      p.operandsText i

/-- The rows of a listing: the counts, the streams, the instructions. -/
def rows (p : Program) : List String :=
  ["; " ++ toString p.instructionCount ++ " instructions, " ++ toString p.registerCount ++
    " temp registers"] ++
  p.inputs.map (fun channel => "; in  " ++ channel.describe) ++
  p.outputs.map (fun channel => "; out " ++ channel.describe) ++
  p.instructions.map p.line

/-- The listing of a program, line by line. A line feed in a name breaks the
line that shows it. -/
def listing (p : Program) : List String := Lines.ofText (Lines.text p.rows)

end Program

end LaneGraph
