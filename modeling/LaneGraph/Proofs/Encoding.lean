import LaneGraph.Machine.Step
import LaneGraph.Proofs.Decoding

/-!
# Reading back encoded instructions

The words of instructions that stand one after the other are read back as the
same instructions. A call says how many arguments it has in one word, so this
holds for calls whose arguments can be counted in a word.
-/

namespace LaneGraph

namespace Instruction

/-- The arguments of a call can be counted in one word. -/
def Countable : Instruction → Prop
  | call _ _ arguments => arguments.length < 2 ^ 32
  | _ => True

/-- Opcode and operands of an instruction. -/
def phrase (i : Instruction) : Phrase := ⟨i.opcode, i.operands⟩

/-- The operands of an instruction are as many as its opcode asks for. -/
theorem fits_phrase {i : Instruction} (h : i.Countable) : i.phrase.Fits := by
  cases i with
  | call f r arguments => exact ⟨f, r, arguments, h, rfl⟩
  | _ => rfl

/-- Opcode and operands of an instruction give the instruction back. -/
theorem instruction_encoded (i : Instruction) (offset : Nat) :
    (⟨offset, i.opcode, i.operands⟩ : Encoded).instruction = .ok i := by
  cases i <;> rfl

/-- Instructions that stand one after the other from a position on. -/
def placed : Nat → List Instruction → List (Except MachineError Encoded)
  | _, [] => []
  | offset, i :: rest =>
    .ok ⟨offset, i.opcode, i.operands⟩ :: placed (offset + (1 + i.operands.length)) rest

/-- Instructions in their places are their opcodes and operands in their places. -/
theorem placed_eq (is : List Instruction) (offset : Nat) :
    placed offset is = (Phrase.placed offset (is.map phrase)).map .ok := by
  induction is generalizing offset with
  | nil => rfl
  | cons i rest ih =>
    rw [placed, ih, List.map_cons, Phrase.placed, List.map_cons, Nat.add_comm 1]
    rfl

/-- The words of instructions are read back as the instructions. -/
theorem readAll_encode (is : List Instruction) (h : ∀ i ∈ is, i.Countable) :
    Encoded.readAll (is.flatMap encode) = placed 0 is := by
  have hfits : ∀ p ∈ is.map phrase, p.Fits := by
    intro p hp
    obtain ⟨i, hi, rfl⟩ := List.mem_map.mp hp
    exact fits_phrase (h i hi)
  rw [placed_eq, ← Encoded.readAll_words _ hfits, List.flatMap_map]
  rfl

end Instruction

/-- The states that instructions lead through when none of them fails. -/
inductive Context.Executes {batches : Nat} (c : Context) :
    State batches → List Instruction → State batches → Prop
  | nil (st : State batches) : Executes c st [] st
  | cons {st mid final : State batches} {i : Instruction} {rest : List Instruction}
      (offset : Nat) (first : c.step st offset i = .ok mid) (later : Executes c mid rest final) :
      Executes c st (i :: rest) final

namespace Context

variable {batches : Nat} {c : Context}

/-- A run without error carries out all of its instructions. -/
theorem executes_of_run_placed {is : List Instruction} {offset : Nat} {st final : State batches}
    (h : c.run st (Instruction.placed offset is) = (final, none)) : c.Executes st is final := by
  induction is generalizing offset st with
  | nil =>
    cases h
    exact .nil _
  | cons i rest ih =>
    rw [Instruction.placed, run, Instruction.instruction_encoded] at h
    simp only [Except.bind] at h
    cases hstep : c.step st offset i with
    | error e =>
      rw [hstep] at h
      cases h
    | ok mid =>
      rw [hstep] at h
      exact .cons offset hstep (ih h)

/-- A program made of instructions carries them out if it ends without error. -/
theorem executes_of_run {is : List Instruction} (hcount : ∀ i ∈ is, i.Countable)
    {st final : State batches}
    (h : c.run st (Encoded.readAll (is.flatMap Instruction.encode)) = (final, none)) :
    c.Executes st is final := by
  rw [Instruction.readAll_encode is hcount] at h
  exact executes_of_run_placed h

end Context

end LaneGraph
