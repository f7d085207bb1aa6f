import LaneGraph.Graph.Basic

/-!
# Choice of operator types and functions

A node takes the type or function that costs the least to convert its operands
to. One step of widening costs one. One step of narrowing costs four, as many
as there are kinds, so that a candidate that only widens tends to win. Of equal
costs the earliest candidate is chosen. Widths are carried separately: a node is
as wide as its widest operand, unless its operator reduces vectors.
-/

namespace LaneGraph

/-- Cost of converting a value of kind `actual` to kind `expected`. -/
def conversionCost (expected actual : Kind) : Nat :=
  if actual.level ≤ expected.level then expected.level - actual.level
  else 4 * (actual.level - expected.level)

-- Sums start from the zero of the core library, whatever else is known of the numbers.
attribute [local instance (2000)] Zero.ofOfNat0

/-- Cost of converting operands to the kinds of a candidate. Operands beyond the
candidate's inputs, and inputs without an operand, cost nothing. The sum is not bounded
here; it fits in 32 bits unless there are more than a hundred million operands. -/
def totalCost (expected actual : List Kind) : Nat :=
  (List.zipWith conversionCost expected actual).sum

/-- Continue the search for the cheapest candidate: `best` is the position and
cost of the winner so far and `position` that of the next candidate. -/
def cheapestFrom (actual : List Kind) :
    Option (Nat × Nat) → Nat → List (List Kind) → Option (Nat × Nat)
  | best, _, [] => best
  | best, position, candidate :: rest =>
    let cost := totalCost candidate actual
    let better := match best with
      | none => true
      | some (_, least) => cost < least
    cheapestFrom actual (if better then some (position, cost) else best) (position + 1) rest

/-- Position of the cheapest candidate, the earliest of several. -/
def cheapest? (candidates : List (List Kind)) (actual : List Kind) : Option Nat :=
  (cheapestFrom actual none 0 candidates).map (·.1)

/-- The largest width of some shapes, one if there are none. -/
def widest : List Shape → Nat
  | [] => 1
  | s :: rest => rest.foldl (fun w t => max w t.width) s.width

namespace Node

/-- Take the cheapest operator type. Without one the node stays unresolved. -/
def resolveOperator (n : Node) (types : List OperatorType) (shapes : List Shape)
    (reduces : Bool) : Node :=
  let width := widest shapes
  match cheapest? (types.map (·.operands)) (shapes.map (·.kind)) with
  | none => n
  | some k =>
    match types[k]? with
    | none => n
    | some type =>
      { n with
        shape := Shape.of type.result (if reduces then 1 else width)
        inputWidth := width
        overload := some (k % 256) }

/-- Take the cheapest candidate function among those that are content with the
number of arguments, and drop the arguments it has no inputs for. -/
def resolveCall (n : Node) (functions : List Signature) (candidates : List FunctionId)
    (arguments : List NodeId) (shapes : List Shape) : Node :=
  let width := widest shapes
  let eligible := candidates.zipIdx.filterMap fun (id, position) =>
    match functions[id]? with
    | some s => if s.required ≤ shapes.length then some (position, s) else none
    | none => none
  match cheapest? (eligible.map (·.2.inputs)) (shapes.map (·.kind)) with
  | none => n
  | some k =>
    match eligible[k]? with
    | none => n
    | some (position, s) =>
      { n with
        op := .call candidates (arguments.take s.inputs.length)
        shape := Shape.of s.output width
        inputWidth := width
        overload := some (position % 256) }

/-- Resolve a node other than a constructor from the shapes of its operands. -/
def resolved (n : Node) (functions : List Signature) (shapes : List Shape) : Node :=
  match n.op with
  | .unary .convert _ =>
    { n with
      shape := Shape.of n.shape.kind (widest shapes)
      inputWidth := widest shapes
      overload := some 0 }
  | .unary op _ => n.resolveOperator op.types shapes op.reduces
  | .binary op _ _ => n.resolveOperator op.types shapes op.reduces
  | .ternary op _ _ _ => n.resolveOperator op.types shapes false
  | .swizzle components _ =>
    { n with
      shape := Shape.of ((shapes.head?.map (·.kind)).getD .unknown) (components.length % 256)
      inputWidth := widest shapes }
  | .call candidates arguments => n.resolveCall functions candidates arguments shapes
  | .constant _ | .input _ | .output _ _ => { n with inputWidth := widest shapes }
  | .construct _ => n

end Node

namespace Graph

/-- The shapes of operands, or nothing as soon as one of them is unknown. -/
def knownShapes? (g : Graph) : List NodeId → Except GraphError (Option (List Shape))
  | [] => .ok (some [])
  | id :: rest =>
    match g.node id with
    | .error e => .error e
    | .ok n =>
      if n.shape.isUnknown then .ok none
      else
        match g.knownShapes? rest with
        | .error e => .error e
        | .ok shapes => .ok (shapes.map (n.shape :: ·))

/-- The kind that operand `index` must have under the type with position
`overload`. -/
def operandKind? (types : List OperatorType) (overload index : Nat) : Option Kind :=
  (types[overload]?).bind (·.operands[index]?)

/-- The shape that operand `index` of a node must have; unknown where anything
is accepted. -/
def expectedShape (g : Graph) (n : Node) (index : Nat) : Shape :=
  let sized (kind : Option Kind) : Shape :=
    match kind with
    | some k => Shape.of k n.inputWidth
    | none => Shape.unknown
  match n.op, n.overload with
  | .output _ _, _ => n.shape
  | _, none => Shape.unknown
  | .unary .convert _, _ | .swizzle _ _, _ => Shape.unknown
  | .unary op _, some k => sized (operandKind? op.types k index)
  | .binary op _ _, some k => sized (operandKind? op.types k index)
  | .ternary op _ _ _, some k => sized (operandKind? op.types k index)
  | .call _ _, some _ => sized ((g.chosen? n).bind (·.inputs[index]?))
  | .construct _, some _ => Shape.of n.shape.kind 1
  | .constant _, some _ | .input _, some _ => Shape.unknown

end Graph

end LaneGraph
