import LaneGraph.Code.Opcode
import LaneGraph.Stream.Format

/-!
# Causes why a program cannot run

Binding fails before anything is written. A malformed instruction is found when
it is reached; what earlier instructions have written stays written.
-/

namespace LaneGraph

/-- What is wrong with an instruction. -/
inductive Malformation where
  /-- There is no word at the position. -/
  | offsetPastEnd
  /-- No opcode has this word. -/
  | unknownOpcode (word : UInt32)
  /-- A call ends before its argument count. -/
  | truncatedCallHeader
  /-- The code ends before the operands do. -/
  | truncated (op : Opcode)
  /-- The operands are not as many as asked for. -/
  | operandCount (op : Opcode) (expected : Nat)
  /-- A call without function, result and count. -/
  | truncatedCall
  /-- A register that the program does not have. -/
  | registerOutOfRange (register : UInt32) (count : Nat)
  /-- An input slot that the program does not have. -/
  | inputOutOfRange (slot : UInt32)
  /-- A load of the other kind of stream. -/
  | wrongStream (op : Opcode) (encoding : Encoding)
  /-- An output slot that the program does not have. -/
  | outputOutOfRange (slot : UInt32)
  /-- A function slot that the program does not have. -/
  | functionOutOfRange (slot : UInt32)
deriving DecidableEq, Repr

namespace Malformation

/-- The message of a malformation. -/
def message : Malformation → String
  | offsetPastEnd => "offset past end of code"
  | unknownOpcode w => "unknown opcode " ++ toString w.toNat
  | truncatedCallHeader => "truncated call header"
  | truncated op => "truncated " ++ op.mnemonic
  | operandCount op n => op.mnemonic ++ " expects " ++ toString n ++ " operands"
  | truncatedCall => "truncated call"
  | registerOutOfRange r count =>
    "register r" ++ toString r.toNat ++ " out of range (" ++ toString count ++ " allocated)"
  | inputOutOfRange i => "input " ++ toString i.toNat ++ " out of range"
  | wrongStream op encoding => op.mnemonic ++ " cannot read a " ++ encoding.name ++ " stream"
  | outputOutOfRange o => "output " ++ toString o.toNat ++ " out of range"
  | functionOutOfRange f => "function " ++ toString f.toNat ++ " out of range"

end Malformation

/-- The two sides of a program's streams. -/
inductive Side where
  | input
  | output
deriving DecidableEq, Repr

/-- Name in messages. -/
def Side.name : Side → String
  | input => "input"
  | output => "output"

/-- Why a program could not run. -/
inductive MachineError where
  /-- An input without a stream. -/
  | inputNotFound (name : String)
  /-- An output without a stream. -/
  | outputNotFound (name : String)
  /-- Binding by position needs one stream per slot. -/
  | streamCountMismatch (side : Side) (expected actual : Nat)
  /-- A stream of the wrong kind, or a vector where a scalar is needed. -/
  | streamTypeMismatch (name : String) (expected : Kind) (actual : Format)
  /-- A stream that is too short. -/
  | streamTooSmall (name : String) (required actual : Nat)
  /-- A function that is not registered. -/
  | functionNotFound (symbol : String)
  /-- A function that is registered with another signature. -/
  | functionSignatureMismatch (symbol : String)
  /-- A malformed instruction at a word of the code. -/
  | malformed (offset : Nat) (cause : Malformation)
  /-- An access that lies outside a buffer or cannot be addressed. -/
  | accessOutOfBounds
  /-- More registers than can be addressed. -/
  | registersTooLarge
deriving DecidableEq, Repr

namespace MachineError

/-- The message of a cause. -/
def message : MachineError → String
  | inputNotFound name => "input stream '" ++ name ++ "' not found"
  | outputNotFound name => "output stream '" ++ name ++ "' not found"
  | streamCountMismatch side expected actual =>
    "expected " ++ toString expected ++ " " ++ side.name ++ " streams, got " ++ toString actual
  | streamTypeMismatch name expected actual =>
    "stream '" ++ name ++ "' has type " ++ actual.name ++ ", expected a " ++ expected.name ++
      " stream"
  | streamTooSmall name required actual =>
    "stream '" ++ name ++ "' holds " ++ toString actual ++ " bytes, " ++ toString required ++
      " required"
  | functionNotFound symbol => "function '" ++ symbol ++ "' is not registered"
  | functionSignatureMismatch symbol =>
    "function '" ++ symbol ++ "' does not match the registered signature"
  | malformed offset cause =>
    "malformed bytecode at word " ++ toString offset ++ ": " ++ cause.message
  | accessOutOfBounds => "access outside a stream buffer"
  | registersTooLarge => "registers exceed the address space"

/-- The execution broke off instead of reporting what is wrong with the program
or its streams. -/
def isFault : MachineError → Bool
  | accessOutOfBounds | registersTooLarge => true
  | _ => false

end MachineError

end LaneGraph
