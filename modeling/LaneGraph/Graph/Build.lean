import LaneGraph.Graph.Overload

/-!
# Making nodes

Every node is resolved when it is made, as far as its operands are known. A
constructor is arranged at the same time: it ends up with exactly one scalar per
component, so it may make selections and a zero of its own, which come after it
in the arena.
-/

namespace LaneGraph.Build

/-- Resolve a node other than a constructor. A node that is resolved already, or
has an operand of unknown shape, stays as it is. -/
def resolvePlain (id : NodeId) : Build Unit := do
  let n ← node id
  if n.overload.isSome then return
  match ← ask (·.knownShapes? n.children) with
  | none => return
  | some shapes =>
    let g ← get
    set (g.setNode id (n.resolved g.functions shapes))

/-- Add a node other than a constructor and resolve it. -/
def plain (op : Operation) (shape : Shape) : Build NodeId := do
  let id ← append { op, shape }
  resolvePlain id
  return id

/-- Add a selection of components. -/
def swizzle (components : List Component) (source : NodeId) : Build NodeId :=
  plain (.swizzle components source) Shape.unknown

/-- Add a literal. -/
def constant (value : Constant) : Build NodeId := plain (.constant value) value.shape

/-- Add a one-component literal. -/
def scalar (value : Scalar) : Build NodeId := constant (Constant.ofScalar value)

/-- Split the arguments of a constructor into scalars, by selections where an
argument is a vector. -/
def flatten : List (NodeId × Shape) → Build (List NodeId)
  | [] => return []
  | (argument, shape) :: rest => do
    let parts ←
      if shape.isScalar then pure [argument]
      else (List.range shape.width).mapM fun i => swizzle [Component.ofIndex i] argument
    return parts ++ (← flatten rest)

/-- The arguments of a constructor as one scalar per component. A single scalar
is spread over all components; otherwise surplus scalars are dropped and missing
ones are zero. -/
def arrangement (target : Shape) (arguments : List (NodeId × Shape)) : Build (List NodeId) := do
  let spread := match arguments with
    | [(argument, shape)] =>
      if shape.isScalar && 1 < target.width then some argument else none
    | _ => none
  match spread with
  | some argument => return List.replicate target.width argument
  | none =>
    let flat := (← flatten arguments).take target.width
    if flat.length < target.width then
      match Scalar.zero? target.kind with
      | some z => do
        let pad ← scalar z
        return flat ++ List.replicate (target.width - flat.length) pad
      | none => return flat
    else return flat

/-- Resolve a node, arranging it if it is a constructor. -/
def resolve (id : NodeId) : Build Unit := do
  let n ← node id
  match n.op with
  | .construct arguments =>
    if n.overload.isSome then return
    match ← ask (·.knownShapes? arguments) with
    | none => return
    | some shapes =>
      let arranged ← arrangement n.shape (arguments.zip shapes)
      modifyNode id fun n => { n with
        op := .construct arranged
        inputWidth := 1
        overload := some 0 }
  | _ => resolvePlain id

/-- Add an operator with one operand. -/
def unary (op : UnaryOp) (operand : NodeId) : Build NodeId :=
  plain (.unary op operand) Shape.unknown

/-- Add a change of kind; the width stays that of the operand. -/
def convert (operand : NodeId) (target : Kind) : Build NodeId :=
  plain (.unary .convert operand) (Shape.of target 1)

/-- Add an operator with two operands. -/
def binary (op : BinaryOp) (left right : NodeId) : Build NodeId :=
  plain (.binary op left right) Shape.unknown

/-- Add an operator with three operands. -/
def ternary (op : TernaryOp) (first second third : NodeId) : Build NodeId :=
  plain (.ternary op first second third) Shape.unknown

/-- Add a number. -/
def float (value : Single) : Build NodeId := scalar (.float value)

/-- Add an integer. -/
def int (value : Int32) : Build NodeId := scalar (.int value)

/-- Add a boolean. -/
def bool (value : Bool) : Build NodeId := scalar (.bool value)

/-- Add a selection spelled by component letters. Other characters are
skipped. -/
def swizzleText (letters : String) (source : NodeId) : Build NodeId :=
  swizzle (letters.toList.filterMap Component.ofLetter?) source

/-- Add a read of a stream. The first use of a name enters the stream into the
input table. -/
def input (channel : Channel) : Build NodeId := do
  modify fun g =>
    if g.inputs.any (·.name == channel.name) then g else { g with inputs := g.inputs ++ [channel] }
  plain (.input channel) channel.format.shape

/-- Add a write of a stream without listing it among the outputs. -/
def unlistedOutput (channel : Channel) (source : NodeId) : Build NodeId :=
  plain (.output channel source) channel.format.shape

/-- Add a write of a stream. -/
def output (channel : Channel) (source : NodeId) : Build NodeId := do
  let id ← unlistedOutput channel source
  modify fun g => { g with outputs := g.outputs ++ [id] }
  return id

/-- The position of a signature in the function table, which it enters on first
use. -/
def function (s : Signature) : Build FunctionId := do
  let g ← get
  match g.functions.idxOf? s with
  | some id => return id
  | none =>
    set { g with functions := g.functions ++ [s] }
    return g.functions.length

/-- Add a call of candidates that are in the function table. -/
def callKnown (candidates : List FunctionId) (arguments : List NodeId) : Build NodeId :=
  plain (.call candidates arguments) Shape.unknown

/-- Add a call of one of several candidate functions. -/
def call (candidates : List Signature) (arguments : List NodeId) : Build NodeId := do
  callKnown (← candidates.mapM function) arguments

/-- Add a vector constructor. -/
def construct (shape : Shape) (arguments : List NodeId) : Build NodeId := do
  let id ← append { op := .construct arguments, shape }
  resolve id
  return id

end LaneGraph.Build
