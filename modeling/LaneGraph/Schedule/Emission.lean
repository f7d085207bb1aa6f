import LaneGraph.Code.Instruction
import LaneGraph.Code.Program
import LaneGraph.Schedule.Allocation

/-!
# From schedule to program

Each step of a schedule becomes one instruction. Streams and functions get slots
in tables: inputs in the order in which the graph declares them, outputs and
functions in the order of their first use. A table holds one entry per name or
symbol.
-/

namespace LaneGraph

/-- The instruction function for an operator with one operand. -/
def UnaryOp.laneFunction? (op : UnaryOp) (operand result : Kind) : Option LaneFunction :=
  match op, operand with
  | .absolute, .float => some .absF
  | .absolute, .int => some .absI
  | .sqrt, .float => some .sqrtF
  | .exp, .float => some .expF
  | .ln, .float => some .lnF
  | .log2, .float => some .log2F
  | .log2, .int => some .log2I
  | .log10, .float => some .log10F
  | .pow2, .float => some .pow2F
  | .sin, .float => some .sinF
  | .cos, .float => some .cosF
  | .tan, .float => some .tanF
  | .asin, .float => some .asinF
  | .acos, .float => some .acosF
  | .atan, .float => some .atanF
  | .round, .float => some .roundF
  | .floor, .float => some .floorF
  | .ceil, .float => some .ceilF
  | .trunc, .float => some .truncF
  | .logicalNot, .bool => some .notB
  | .bitwiseNot, .int => some .notI
  | .convert, .int => if result = .float then some .intToFloat else none
  | .convert, .float => if result = .int then some .floatToInt else none
  | _, _ => none

/-- The instruction operation for an operator with two operands, by the kind of
the left one. -/
def BinaryOp.laneOperation? (op : BinaryOp) (left : Kind) : Option LaneOperation :=
  match op, left with
  | .add, .float => some .addF
  | .add, .int => some .addI
  | .subtract, .float => some .subF
  | .subtract, .int => some .subI
  | .multiply, .float => some .mulF
  | .multiply, .int => some .mulI
  | .divide, .float => some .divF
  | .divide, .int => some .divI
  | .min, .float => some .minF
  | .min, .int => some .minI
  | .max, .float => some .maxF
  | .max, .int => some .maxI
  | .shiftLeft, .int => some .shlI
  | .shiftRight, .int => some .shrI
  | .bitwiseAnd, .int => some .andI
  | .bitwiseXor, .int => some .xorI
  | .bitwiseOr, .int => some .orI
  | .equal, .float => some .eqF
  | .equal, .int => some .eqI
  | .equal, .bool => some .eqB
  | .notEqual, .float => some .neqF
  | .notEqual, .int => some .neqI
  | .notEqual, .bool => some .neqB
  | .less, .float => some .ltF
  | .less, .int => some .ltI
  | .lessEqual, .float => some .leqF
  | .lessEqual, .int => some .leqI
  | .greater, .float => some .gtF
  | .greater, .int => some .gtI
  | .greaterEqual, .float => some .geqF
  | .greaterEqual, .int => some .geqI
  | .logicalAnd, .bool => some .andB
  | .logicalOr, .bool => some .orB
  | _, _ => none

/-- The choice instruction for values of a kind. -/
def Kind.choice? : Kind → Option Choice
  | float => some .float
  | int => some .int
  | bool => some .bool
  | unknown => none

namespace Emission

/-- The slot of an entry in a table with one entry per key; a new key gets the
next slot. -/
def slot {α : Type} (key : α → String) (table : List α) (entry : α) : Nat × List α :=
  match table.findIdx? fun other => key other == key entry with
  | some i => (i, table)
  | none => (table.length, table ++ [entry])

/-- The tables of a program under construction. -/
structure Tables where
  /-- Input streams, one per name. -/
  inputs : List Channel := []
  /-- Output streams, one per name. -/
  outputs : List Channel := []
  /-- Functions, one per symbol. -/
  functions : List Signature := []
deriving DecidableEq, Repr

/-- The slot of an input stream. -/
def Tables.input (t : Tables) (channel : Channel) : UInt32 × Tables :=
  let (i, inputs) := slot Channel.name t.inputs channel
  (UInt32.ofNat i, { t with inputs })

/-- The slot of an output stream. -/
def Tables.output (t : Tables) (channel : Channel) : UInt32 × Tables :=
  let (i, outputs) := slot Channel.name t.outputs channel
  (UInt32.ofNat i, { t with outputs })

/-- The slot of a function. -/
def Tables.function (t : Tables) (s : Signature) : UInt32 × Tables :=
  let (i, functions) := slot Signature.symbol t.functions s
  (UInt32.ofNat i, { t with functions })

/-- What an emission reads: the graph, the schedule and the registers. -/
structure Source where
  /-- The graph. -/
  graph : Graph
  /-- The order of its nodes. -/
  schedule : Schedule
  /-- The registers of its values. -/
  allocation : Allocation

namespace Source

/-- The register of a numbered value. -/
def registerOfValue (s : Source) (value : Nat) : UInt32 :=
  UInt32.ofNat ((s.allocation.registers[value]?).getD 0)

/-- The register that holds the value of a node. -/
def register (s : Source) (id : NodeId) : Except CompileError UInt32 :=
  match s.schedule.valueOf? id with
  | some value => .ok (s.registerOfValue value)
  | none => .error (.invalidNode id)

/-- A node of the graph. -/
def node (s : Source) (id : NodeId) : Except CompileError Node :=
  match s.graph.node id with
  | .ok n => .ok n
  | .error e => .error (.transform e)

end Source

/-- The known kind of a node. -/
def kindOf (n : Node) : Except CompileError Kind :=
  if n.shape.kind = .unknown then .error (.unresolvedType n.describe) else .ok n.shape.kind

/-- The pattern of a scalar literal. -/
def literalBits (n : Node) : Except CompileError UInt32 :=
  match n.constant? with
  | none => .error (.noEncoding n.describe)
  | some c =>
    if c.kind = .unknown then .error (.unresolvedType n.describe)
    else
      match c.scalar? with
      | some s => .ok s.bits
      | none => .error (.noEncoding n.describe)

/-- What there is, or else an error that says there is no instruction for a
node. -/
def orNoEncoding {α : Type} (n : Node) : Option α → Except CompileError α
  | some a => .ok a
  | none => .error (.noEncoding n.describe)

/-- The transfer that stores to a stream. -/
def storeTransfer (channel : Channel) : Transfer :=
  if channel.format.encoding.kind = .float then .float else .int

/-- The transfer that loads from a stream. -/
def loadTransfer (channel : Channel) : Transfer :=
  if channel.format.encoding.kind = .float then .float else .int

/-- The instruction of a node whose result register is `r`. -/
def instruction (s : Source) (t : Tables) (n : Node) (r : UInt32) :
    Except CompileError (Instruction × Tables) := do
  match n.op with
  | .constant _ => return (.move r (← literalBits n), t)
  | .input channel =>
    let (slot, t) := t.input channel
    return (.load (loadTransfer channel) r slot, t)
  | .output channel source =>
    let (slot, t) := t.output channel
    if s.graph.holdsOperand n.op 0 source then
      return (.storeConst (storeTransfer channel) slot (← literalBits (← s.node source)), t)
    else
      return (.store (storeTransfer channel) slot (← s.register source), t)
  | .unary op operand =>
    let operandKind ← kindOf (← s.node operand)
    let f ← orNoEncoding n (op.laneFunction? operandKind (← kindOf n))
    return (.apply f r (← s.register operand), t)
  | .binary op left right =>
    let leftKind ← kindOf (← s.node left)
    let o ← orNoEncoding n (op.laneOperation? leftKind)
    let a ← s.register left
    if s.graph.holdsOperand n.op 1 right then
      return (.combineConst o r a (← literalBits (← s.node right)), t)
    else
      return (.combine o r a (← s.register right), t)
  | .ternary .select condition ifTrue ifFalse =>
    let c ← orNoEncoding n (← kindOf n).choice?
    let m ← s.register condition
    let a ← s.register ifTrue
    let b ← s.register ifFalse
    return (.select c r m a b, t)
  | .call _ arguments =>
    match s.graph.chosen? n with
    | none => throw (.unresolvedType n.describe)
    | some f =>
      let (slot, t) := t.function f
      return (.call slot r (← arguments.mapM s.register), t)
  | .ternary _ _ _ _ | .swizzle _ _ | .construct _ => throw (.noEncoding n.describe)

/-- The instructions of steps in order. -/
def instructions (s : Source) :
    Tables → List Step → Except CompileError (List Instruction × Tables)
  | t, [] => .ok ([], t)
  | t, step :: rest => do
    let n ← s.node step.node
    let r := (step.value.map s.registerOfValue).getD 0
    let (i, t) ← instruction s t n r
    let (is, t) ← instructions s t rest
    return (i :: is, t)

/-- A scheduled node reads the stream of this name. -/
def Source.reads (s : Source) (name : String) : Bool :=
  s.schedule.steps.any fun step =>
    match s.graph.node? step.node with
    | some n =>
      match n.op with
      | .input channel => channel.name == name
      | _ => false
    | none => false

/-- Tables with the declared inputs that are read, in order of declaration. -/
def declaredInputs (s : Source) : Tables :=
  (s.graph.inputs.filter fun channel => s.reads channel.name).foldl
    (fun t channel => (t.input channel).2) {}

/-- The program of a schedule with its registers. -/
def program (s : Source) : Except CompileError Program := do
  let (is, t) ← instructions s (declaredInputs s) s.schedule.steps
  return {
    code := is.flatMap Instruction.encode
    inputs := t.inputs
    outputs := t.outputs
    functions := t.functions
    instructionCount := s.schedule.steps.length
    registerCount := s.allocation.count }

end Emission

end LaneGraph
