import LaneGraph.Machine.Step

/-!
# The machine

A machine knows native functions and how to bind streams. Executing a program
binds everything first; if that fails, nothing is written.
-/

namespace LaneGraph

/-- A machine. -/
structure Machine where
  /-- How streams are bound. -/
  flags : ExecuteFlags := .userFriendly
  /-- The registered functions, one per symbol, in order of registration. -/
  functions : List Function := Function.builtins
  /-- How many lane groups the last execution held in registers. -/
  registerCells : Nat := 0

namespace Machine

/-- The function registered under a symbol. -/
def find? (m : Machine) (symbol : String) : Option Function :=
  m.functions.find? (·.signature.symbol == symbol)

/-- Register a function under its symbol, in place of the one it replaces, which
is returned. -/
def register (m : Machine) (f : Function) : Option Function × Machine :=
  match m.find? f.signature.symbol with
  | none => (none, { m with functions := m.functions ++ [f] })
  | some old =>
    (some old, { m with functions := m.functions.map fun g =>
      if g.signature.symbol == f.signature.symbol then f else g })

/-- Remove the function registered under the symbol of a signature, which is
returned. -/
def unregister (m : Machine) (s : Signature) : Option Function × Machine :=
  (m.find? s.symbol,
    { m with functions := m.functions.filter fun g => g.signature.symbol != s.symbol })

/-- The signatures of the functions with a name. -/
def overloads (m : Machine) (name : String) : List Signature :=
  (m.functions.map (·.signature)).filter (·.name == name)

/-- What an execution leaves behind. -/
structure Outcome where
  /-- What went wrong, if anything. -/
  error : Option MachineError
  /-- The output streams. -/
  outputs : List Stream

/-- Bind the slots of a program. -/
def bind (m : Machine) (p : Program) (inputs outputs : List Stream) (instances : Nat)
    (globals : Globals) : Except MachineError Context := do
  let boundInputs ← Binding.bindInputs m.flags p inputs instances
  let boundOutputs ← Binding.bindOutputs m.flags p outputs instances
  let functions ← Binding.bindFunctions m.functions p
  return ⟨instances, boundInputs, boundOutputs, functions, globals⟩

/-- The least number of lane groups that cannot be allocated. A group takes
sixteen bytes, and all of them together less than half of the address space. -/
def cellLimit : Nat := addressSpace / 32

/-- Run a program for a number of instances. -/
def execute (m : Machine) (p : Program) (inputs outputs : List Stream) (instances : Nat)
    (globals : Globals) : Outcome × Machine :=
  if instances = 0 then (⟨none, outputs⟩, m)
  else
    match m.bind p inputs outputs instances globals with
    | .error e => (⟨some e, outputs⟩, m)
    | .ok context =>
      let batches := batchCount instances
      if cellLimit ≤ p.registerCount * batches then (⟨some .registersTooLarge, outputs⟩, m)
      else
        let start : State batches :=
          { registers := Array.replicate p.registerCount (Vector.replicate batches Lanes.zero)
            outputs := outputs.toArray }
        let (final, error) := context.run start p.instructions
        (⟨error, final.outputs.toList⟩, { m with registerCells := p.registerCount * batches })

/-- A truth value in texts. -/
def flagText (b : Bool) : String := if b then "true" else "false"

/-- The state of a machine in one line. -/
def describe (m : Machine) : String :=
  "Vm \x7b flags: ExecuteFlags \x7b map_streams_by_name: " ++ flagText m.flags.byName ++
    ", scalarize_streams: " ++ flagText m.flags.splitVectors ++
    ", allow_missing_outputs: " ++ flagText m.flags.allowMissingOutputs ++
    " \x7d, functions: " ++ toString m.functions.length ++
    ", registers: " ++ toString m.registerCells ++ ", .. \x7d"

end Machine

end LaneGraph
