import LaneGraph.Schedule.Order

/-!
# Register allocation

Values take registers in the order in which they start. A register is free again
once the value in it has been read last; the register freed last is taken
first, and a new one only if none is free. Nothing is ever moved, so the number
of registers is the largest number of values needed at once.
-/

namespace LaneGraph

/-- Registers of values by their numbers. -/
structure Allocation where
  /-- The register of each value. -/
  registers : List Nat
  /-- How many registers are in use. -/
  count : Nat
deriving DecidableEq, Repr

namespace Allocation

/-- The state of the scan: registers in use with the ends of their values,
oldest first, and free registers, freed last first. -/
structure Scan where
  /-- Ends and registers of the values in use. -/
  active : List (Nat × Nat) := []
  /-- Free registers. -/
  free : List Nat := []
deriving DecidableEq, Repr

/-- Free the registers of values that end by the start of a new one. -/
def Scan.expire (s : Scan) (start : Nat) : Scan :=
  let done := (s.active.filter (·.1 ≤ start)).map (·.2)
  { active := s.active.filter fun v => !(v.1 ≤ start)
    free := done.reverse ++ s.free }

/-- Take a register for a value. -/
def Scan.take (s : Scan) (value : Interval) : Nat × Scan :=
  let s := s.expire value.start
  match s.free with
  | register :: rest =>
    (register, { active := s.active ++ [(value.stop, register)], free := rest })
  | [] =>
    let register := s.active.length
    (register, { active := s.active ++ [(value.stop, register)], free := [] })

/-- Registers for values in the order in which they start, with their numbers. -/
def assign : Scan → List (Interval × Nat) → List (Nat × Nat)
  | _, [] => []
  | s, (value, number) :: rest =>
    let (register, s) := s.take value
    (number, register) :: assign s rest

/-- Values with their numbers in the order in which they start; values that
start together keep the order of their numbers. -/
def byStart (values : List Interval) : List (Interval × Nat) :=
  values.zipIdx.mergeSort fun a b => a.1.start ≤ b.1.start

/-- Registers for all values. -/
def ofIntervals (values : List Interval) : Allocation :=
  let assigned := assign {} (byStart values)
  { registers := (List.range values.length).map fun number => (assigned.lookup number).getD 0
    count := assigned.foldl (fun count entry => max count (entry.2 + 1)) 0 }

/-- The first later value that shares a register with a value while both are
needed. -/
def clash? (value : Interval × Nat) (later : List (Interval × Nat)) : Option CompileError :=
  (later.find? fun other => value.2 = other.2 && value.1.overlaps other.1).map fun other =>
    .registerAllocation value.2 value.1.node other.1.node

/-- Look for a clash among values with their registers. -/
def firstClash? : List (Interval × Nat) → Option CompileError
  | [] => none
  | value :: rest =>
    match clash? value rest with
    | some e => some e
    | none => firstClash? rest

/-- Check that no two values share a register while both are needed. -/
def verify (values : List Interval) (a : Allocation) : Except CompileError Unit :=
  match firstClash? (values.zip a.registers) with
  | some e => .error e
  | none => .ok ()

end Allocation

end LaneGraph
