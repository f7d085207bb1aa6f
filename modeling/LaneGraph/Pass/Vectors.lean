import LaneGraph.Pass.Sweep

/-!
# Vector operators

Operators that mix components are written out: lengths, unit vectors, inner and
cross products, reflections and the conjunction or disjunction of components
become selections and operators that work component by component.
-/

namespace LaneGraph.Vectors

/-- One component of a vector. -/
def component (source : NodeId) (index : Nat) : Build NodeId :=
  Build.swizzle [Component.ofIndex index] source

/-- The product of one component of two vectors. -/
def componentProduct (a b : NodeId) (index : Nat) : Build NodeId := do
  let ac ← component a index
  let bc ← component b index
  Build.binary .multiply ac bc

/-- The inner product, summed from the first component to the last. -/
def dot (a b : NodeId) (width : Nat) : Build NodeId := do
  if width ≤ 1 then Build.binary .multiply a b
  else
    let first ← componentProduct a b 0
    (List.range (width - 1)).foldlM (fun sum i => do
      let product ← componentProduct a b (i + 1)
      Build.binary .add sum product) first

/-- The length: the root of the inner product with itself. -/
def length (a : NodeId) : Build NodeId := do
  let shape ← Build.shape a
  Build.unary .sqrt (← dot a a shape.width)

/-- Join all components by an operator, from the first to the last. -/
def join (op : BinaryOp) (a : NodeId) (width : Nat) : Build NodeId := do
  let first ← component a 0
  (List.range (width - 1)).foldlM (fun joined i => do
    let next ← component a (i + 1)
    Build.binary op joined next) first

/-- The cross product of two three-component vectors. -/
def cross (a b : NodeId) : Build NodeId := do
  let aYzx ← Build.swizzle [.y, .z, .x] a
  let bZxy ← Build.swizzle [.z, .x, .y] b
  let aZxy ← Build.swizzle [.z, .x, .y] a
  let bYzx ← Build.swizzle [.y, .z, .x] b
  let left ← Build.binary .multiply aYzx bZxy
  let right ← Build.binary .multiply aZxy bYzx
  Build.binary .subtract left right

/-- The reflection of `a` at the normal `b`. -/
def reflect (shape : Shape) (a b : NodeId) (width : Nat) : Build NodeId := do
  let inner ← dot a b width
  let two ← match shape.kind with
    | .int => Build.int 2
    | _ => Build.float 2
  let scaled ← Build.binary .multiply inner two
  let spread ← Build.construct shape [scaled]
  let offset ← Build.binary .multiply b spread
  Build.binary .subtract a offset

/-- Write out one vector operator. -/
def replace (id : NodeId) : Build NodeId := do
  let n ← Build.node id
  match n.op with
  | .unary .length a => length a
  | .unary .normalize a =>
    let l ← length a
    let divisor ← Build.construct n.shape [l]
    Build.binary .divide a divisor
  | .unary .all a => if n.inputWidth ≤ 1 then return id else join .logicalAnd a n.inputWidth
  | .unary .any a => if n.inputWidth ≤ 1 then return id else join .logicalOr a n.inputWidth
  | .binary .dot a b => dot a b n.inputWidth
  | .binary .cross a b =>
    if n.inputWidth ≠ 3 then throw (.crossRequiresThree n.inputWidth) else cross a b
  | .binary .reflect a b => reflect n.shape a b n.inputWidth
  | _ => return id

/-- The pass that writes out vector operators. -/
def pass : Pass := ⟨"ReplaceVectorInstructions", .downward, replace⟩

end LaneGraph.Vectors
