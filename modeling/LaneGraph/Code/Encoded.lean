import LaneGraph.Machine.Error

/-!
# Instructions in a code stream

A code stream is a list of words. An instruction is an opcode word and its
operands; only a call has a variable number of them. Reading a stream gives its
instructions one after the other and ends with the first one that is malformed.
-/

namespace LaneGraph

/-- An instruction as it stands in a code stream. -/
structure Encoded where
  /-- Position of the opcode word. -/
  offset : Nat
  /-- What the instruction does. -/
  opcode : Opcode
  /-- The words after the opcode. -/
  operands : List UInt32
deriving DecidableEq, Repr

namespace Encoded

/-- The words of an instruction. -/
def words (i : Encoded) : List UInt32 := i.opcode.word :: i.operands

/-- How many words an instruction has. -/
def length (i : Encoded) : Nat := 1 + i.operands.length

/-- How many operands follow an opcode whose operand words are at the front of
`rest`. The third operand of a call counts its arguments. -/
def operandCount (offset : Nat) (op : Opcode) (rest : List UInt32) : Except MachineError Nat :=
  match op.layout.fixedOperands? with
  | some n => .ok n
  | none =>
    match rest[2]? with
    | some count => .ok (3 + count.toNat)
    | none => .error (.malformed offset .truncatedCallHeader)

/-- The instruction at the front of `code`, which stands at `offset` of its
stream. -/
def ofWords (offset : Nat) (code : List UInt32) : Except MachineError Encoded :=
  match code with
  | [] => .error (.malformed offset .offsetPastEnd)
  | word :: rest =>
    match Opcode.ofWord? word with
    | none => .error (.malformed offset (.unknownOpcode word))
    | some op =>
      match operandCount offset op rest with
      | .error e => .error e
      | .ok count =>
        if count ≤ rest.length then .ok ⟨offset, op, rest.take count⟩
        else .error (.malformed offset (.truncated op))

/-- The instruction at a position of a code stream. -/
def decode (code : List UInt32) (offset : Nat) : Except MachineError Encoded :=
  ofWords offset (code.drop offset)

/-- Read instructions until the words are used up or one is malformed. Every
instruction uses up a word, so as many steps as words are enough. -/
def readFrom : Nat → Nat → List UInt32 → List (Except MachineError Encoded)
  | 0, _, _ => []
  | _, _, [] => []
  | steps + 1, offset, code =>
    match ofWords offset code with
    | .error e => [.error e]
    | .ok i => .ok i :: readFrom steps (offset + i.length) (code.drop i.length)

/-- The instructions of a code stream; an error can only be the last entry. -/
def readAll (code : List UInt32) : List (Except MachineError Encoded) :=
  readFrom code.length 0 code

/-- The operands, if they are as many as asked for. -/
def fixed (i : Encoded) (n : Nat) : Except MachineError (List UInt32) :=
  if i.operands.length = n then .ok i.operands
  else .error (.malformed i.offset (.operandCount i.opcode n))

/-- Function slot, result and arguments of a call. -/
def callParts (i : Encoded) : Except MachineError (UInt32 × UInt32 × List UInt32) :=
  match i.operands with
  | function :: result :: _ :: arguments => .ok (function, result, arguments)
  | _ => .error (.malformed i.offset .truncatedCall)

end Encoded

end LaneGraph
