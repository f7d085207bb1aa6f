import LaneGraph.Code.Encoded

/-!
# Instructions

An instruction with its operands in their roles. Encoding gives its words, and
the words of an instruction in a code stream give it back.
-/

namespace LaneGraph

/-- An instruction. Registers, slots and constants are words. -/
inductive Instruction where
  /-- Apply a function to a register. -/
  | apply (f : LaneFunction) (result operand : UInt32)
  /-- Combine two registers. -/
  | combine (o : LaneOperation) (result left right : UInt32)
  /-- Combine a register with a constant. -/
  | combineConst (o : LaneOperation) (result left constant : UInt32)
  /-- Choose between two registers by a third. -/
  | select (c : Choice) (result condition ifTrue ifFalse : UInt32)
  /-- Fill a register with a constant. -/
  | move (result constant : UInt32)
  /-- Read an input stream. -/
  | load (t : Transfer) (result input : UInt32)
  /-- Write a register to an output stream. -/
  | store (t : Transfer) (output register : UInt32)
  /-- Write a constant to an output stream. -/
  | storeConst (t : Transfer) (output constant : UInt32)
  /-- Call a native function. -/
  | call (function result : UInt32) (arguments : List UInt32)
deriving DecidableEq, Repr

namespace Instruction

/-- The opcode of an instruction. -/
def opcode : Instruction → Opcode
  | apply f _ _ => .function f
  | combine o _ _ _ => .operation o false
  | combineConst o _ _ _ => .operation o true
  | select c _ _ _ _ => .select c
  | move _ _ => .move
  | load t _ _ => .load t
  | store t _ _ => .store t
  | storeConst t _ _ => .storeConst t
  | call _ _ _ => .call

/-- The words after the opcode. -/
def operands : Instruction → List UInt32
  | apply _ r a => [r, a]
  | combine _ r a b => [r, a, b]
  | combineConst _ r a c => [r, a, c]
  | select _ r a b c => [r, a, b, c]
  | move r c => [r, c]
  | load _ r i => [r, i]
  | store _ o r => [o, r]
  | storeConst _ o c => [o, c]
  | call f r args => f :: r :: UInt32.ofNat args.length :: args

/-- All words of an instruction. -/
def encode (i : Instruction) : List UInt32 := i.opcode.word :: i.operands

end Instruction

/-- The operands of an instruction in their roles. -/
def Encoded.instruction (e : Encoded) : Except MachineError Instruction :=
  let wrongCount (n : Nat) : Except MachineError Instruction :=
    .error (.malformed e.offset (.operandCount e.opcode n))
  match e.opcode, e.operands with
  | .function f, [r, a] => .ok (.apply f r a)
  | .function _, _ => wrongCount 2
  | .operation o false, [r, a, b] => .ok (.combine o r a b)
  | .operation o true, [r, a, c] => .ok (.combineConst o r a c)
  | .operation _ _, _ => wrongCount 3
  | .select c, [r, m, a, b] => .ok (.select c r m a b)
  | .select _, _ => wrongCount 4
  | .move, [r, c] => .ok (.move r c)
  | .load t, [r, i] => .ok (.load t r i)
  | .store t, [o, r] => .ok (.store t o r)
  | .storeConst t, [o, c] => .ok (.storeConst t o c)
  | .call, f :: r :: _ :: args => .ok (.call f r args)
  | .call, _ => .error (.malformed e.offset .truncatedCall)
  | _, _ => wrongCount 2

end LaneGraph
