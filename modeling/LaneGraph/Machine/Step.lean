import LaneGraph.Code.Instruction
import LaneGraph.Machine.Binding

/-!
# Steps of the machine

One instruction is carried out for all batches before the next. An instruction
that is malformed changes nothing. The last batch may be incomplete: its unused
lanes repeat the last instance, and only real instances are stored.
-/

namespace LaneGraph

/-- What an execution works with. -/
structure Context where
  /-- How many instances there are. -/
  instances : Nat
  /-- The bound input slots. -/
  inputs : List Binding.BoundInput
  /-- The bound output slots. -/
  outputs : List (Option Binding.BoundOutput)
  /-- The bound functions. -/
  functions : List Native
  /-- The global values. -/
  globals : Globals

/-- How many batches hold a number of instances. -/
def batchCount (instances : Nat) : Nat := (instances + 3) / 4

/-- What an execution changes. -/
structure State (batches : Nat) where
  /-- The registers. -/
  registers : Array (Column batches)
  /-- The output streams. -/
  outputs : Array Stream

namespace State

variable {batches : Nat}

/-- The value of a register. -/
def register (s : State batches) (offset : Nat) (r : UInt32) :
    Except MachineError (Column batches) :=
  match s.registers[r.toNat]? with
  | some column => .ok column
  | none => .error (.malformed offset (.registerOutOfRange r s.registers.size))

/-- Replace the value of a register. -/
def setRegister (s : State batches) (r : UInt32) (column : Column batches) : State batches :=
  { s with registers := s.registers.setIfInBounds r.toNat column }

end State

/-- Combine two columns register by register. -/
def zipColumns {batches : Nat} (f : Lanes → Lanes → Lanes) (a b : Column batches) :
    Column batches :=
  Vector.zipWith f a b

/-- All batches of an input. -/
def loadColumn (batches instances : Nat) (input : Binding.BoundInput) : Column batches :=
  Vector.ofFn fun batch : Fin batches =>
    Lanes.ofFn fun lane =>
      input.view.read input.stream (min (4 * batch.val + lane.val) (instances - 1))

/-- The pattern of an instance in a column. -/
def instanceBits {batches : Nat} (column : Column batches) (i : Nat) : UInt32 :=
  match column[i / 4]? with
  | some lanes => lanes.get ⟨i % 4, Nat.mod_lt i (by decide)⟩
  | none => 0

/-- Store one pattern per instance. -/
def storeAll (view : ElementView) (instances : Nat) (bits : Nat → UInt32) (s : Stream) : Stream :=
  (List.range instances).foldl (fun s i => view.write s i (bits i)) s

namespace Context

variable {batches : Nat}

/-- Store to a bound output slot. A slot without a stream is skipped. -/
def store (c : Context) (st : State batches) (offset : Nat) (slot : UInt32)
    (bits : Nat → UInt32) : Except MachineError (State batches) :=
  match c.outputs[slot.toNat]? with
  | none => .error (.malformed offset (.outputOutOfRange slot))
  | some none => .ok st
  | some (some bound) =>
    match st.outputs[bound.stream]? with
    | none => .error .accessOutOfBounds
    | some s =>
      if bound.view.allInBounds s.length c.instances then
        .ok { st with
          outputs := st.outputs.setIfInBounds bound.stream
            (storeAll bound.view c.instances bits s) }
      else .error .accessOutOfBounds

/-- Load from a bound input slot. -/
def load (c : Context) (st : State batches) (offset : Nat) (t : Transfer) (r slot : UInt32) :
    Except MachineError (State batches) := do
  let _ ← st.register offset r
  match c.inputs[slot.toNat]? with
  | none => throw (.malformed offset (.inputOutOfRange slot))
  | some input =>
    if input.view.encoding.kind ≠ t.kind then
      throw (.malformed offset (.wrongStream (.load t) input.view.encoding))
    else if input.view.allInBounds input.stream.length c.instances then
      return st.setRegister r (loadColumn batches c.instances input)
    else throw .accessOutOfBounds

/-- Carry out one instruction that stands at `offset`. -/
def step (c : Context) (st : State batches) (offset : Nat) :
    Instruction → Except MachineError (State batches)
  | .apply f r a => do
    let _ ← st.register offset r
    let x ← st.register offset a
    return st.setRegister r (x.map (Lanes.map f.eval))
  | .combine o r a b => do
    let _ ← st.register offset r
    let x ← st.register offset a
    let y ← st.register offset b
    return st.setRegister r (zipColumns (Lanes.zip o.eval) x y)
  | .combineConst o r a constant => do
    let _ ← st.register offset r
    let x ← st.register offset a
    return st.setRegister r (x.map fun lanes => Lanes.zip o.eval lanes (Lanes.splat constant))
  | .select _ r a b d => do
    let _ ← st.register offset r
    let mask ← st.register offset a
    let ifSet ← st.register offset b
    let ifClear ← st.register offset d
    return st.setRegister r (selectColumns mask ifSet ifClear)
  | .move r constant => do
    let _ ← st.register offset r
    return st.setRegister r (Vector.replicate batches (Lanes.splat constant))
  | .load t r slot => c.load st offset t r slot
  | .store _ slot r => do
    let x ← st.register offset r
    c.store st offset slot (instanceBits x)
  | .storeConst _ slot constant => c.store st offset slot fun _ => constant
  | .call function r arguments => do
    match c.functions[function.toNat]? with
    | none => throw (.malformed offset (.functionOutOfRange function))
    | some native =>
      let _ ← st.register offset r
      let columns ← arguments.mapM (st.register offset)
      return st.setRegister r (native.run batches columns c.globals)

/-- Carry out instructions up to the first that is malformed. The state is the
one before that instruction. -/
def run (c : Context) (st : State batches) :
    List (Except MachineError Encoded) → State batches × Option MachineError
  | [] => (st, none)
  | .error e :: _ => (st, some e)
  | .ok encoded :: rest =>
    match encoded.instruction.bind (c.step st encoded.offset) with
    | .error e => (st, some e)
    | .ok st => c.run st rest

end Context

end LaneGraph
