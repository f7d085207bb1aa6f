import LaneGraph.Graph.Walk

/-!
# Instruction order and lifetimes

The nodes of a finished graph are put into a line in which every node follows
the nodes it reads. A literal that its user's instruction can hold is left out.
Every node that is no output owns a value, which lives from the instruction
that makes it to the last one that reads it.
-/

namespace LaneGraph

/-- Why a graph could not be turned into a program. -/
inductive CompileError where
  /-- A pass of the pipeline failed. -/
  | transform (cause : GraphError)
  /-- There is nothing to compute. -/
  | noOutputs
  /-- A reference that leads out of the arena, or to a node without a value. -/
  | invalidNode (id : NodeId)
  /-- A node whose kind is not known. -/
  | unresolvedType (node : String)
  /-- A node for which there is no instruction. -/
  | noEncoding (node : String)
  /-- Two values share a register while both are needed. -/
  | registerAllocation (register : Nat) (first second : NodeId)
deriving DecidableEq, Repr

namespace CompileError

/-- The message of a cause. -/
def message : CompileError → String
  | transform cause => "transform failed: " ++ cause.message
  | noOutputs => "expression has no outputs"
  | invalidNode id => "invalid node reference " ++ nodeText id
  | unresolvedType node => "node " ++ node ++ " has no resolved type"
  | noEncoding node => "no bytecode encoding for " ++ node
  | registerAllocation register first second =>
    "register r" ++ toString register ++ " assigned to overlapping values " ++ nodeText first ++
      " and " ++ nodeText second

end CompileError

/-- The instructions during which a value is needed. -/
structure Interval where
  /-- The instruction that makes the value. -/
  start : Nat
  /-- The last instruction that reads it. -/
  stop : Nat
  /-- The node whose value it is. -/
  node : NodeId
deriving DecidableEq, Repr

/-- Both values are needed at once. A value may be made by the instruction that
reads another one last. -/
def Interval.overlaps (a b : Interval) : Bool := a.start < b.stop && b.start < a.stop

/-- One instruction to be: a node and, unless it is an output, the number of its
value. -/
structure Step where
  /-- The node that the instruction computes. -/
  node : NodeId
  /-- The number of its value. -/
  value : Option Nat
deriving DecidableEq, Repr

/-- A line of instructions with the lifetimes of their values. -/
structure Schedule where
  /-- The instructions in order. -/
  steps : List Step := []
  /-- The lifetimes of values by their numbers. -/
  intervals : Array Interval := #[]
deriving DecidableEq, Repr

namespace Graph

/-- The instruction of a node that does `op` holds operand `index` itself, being
a literal. -/
def holdsOperand (g : Graph) (op : Operation) (index : Nat) (child : NodeId) : Bool :=
  let literal := ((g.node? child).bind Node.constant?).isSome
  match op with
  | .binary _ _ _ => literal && index = 1
  | .output _ _ => literal
  | _ => false

/-- The operands that the instruction of a node reads from registers. -/
def readOperands (g : Graph) (n : Node) : List NodeId :=
  (n.children.zipIdx.filter fun (child, index) => !g.holdsOperand n.op index child).map (·.1)

/-- The operands of a node that need instructions of their own. All operands
have to be in the arena; the last missing one is reported. -/
def scheduledOperands (g : Graph) (id : NodeId) : Except CompileError (List NodeId) :=
  match g.node? id with
  | none => .error (.invalidNode id)
  | some n =>
    match n.children.reverse.find? fun child => (g.node? child).isNone with
    | some missing => .error (.invalidNode missing)
    | none => .ok (g.readOperands n)

end Graph

namespace Schedule

/-- The number of a node's value. -/
def valueOf? (s : Schedule) (id : NodeId) : Option Nat :=
  s.intervals.findIdx? (·.node = id)

/-- Let the value of a node live up to an instruction. -/
def extend (s : Schedule) (position : Nat) (id : NodeId) : Schedule :=
  match s.valueOf? id with
  | none => s
  | some v =>
    { s with
      intervals := s.intervals.modify v fun i => { i with stop := max i.stop position } }

/-- Append the instruction of a node. -/
def append (g : Graph) (s : Schedule) (id : NodeId) : Schedule :=
  match g.node? id with
  | none => s
  | some n =>
    let position := s.steps.length
    let s := (g.readOperands n).foldl (fun s child => s.extend position child) s
    if n.isOutput then { s with steps := s.steps ++ [⟨id, none⟩] }
    else
      { steps := s.steps ++ [⟨id, some s.intervals.size⟩]
        intervals := s.intervals.push ⟨position, position, id⟩ }

/-- Put everything the outputs depend on into a line. -/
def ofGraph (g : Graph) : Except CompileError Schedule :=
  if g.outputs.isEmpty then .error .noOutputs
  else
    match g.walk g.scheduledOperands with
    | .error e => .error e
    | .ok order => .ok (order.foldl (append g) {})

end Schedule

end LaneGraph
