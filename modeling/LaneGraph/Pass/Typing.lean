import LaneGraph.Pass.Sweep

/-!
# Type deduction

Every node is resolved and every operand gets exactly the shape its user
expects: a wrong kind is converted, a scalar for a vector is spread by a
constructor, and any other difference in width is an error.
-/

namespace LaneGraph.Typing

/-- Make a value of shape `actual` fit a known shape. -/
def fit (child : NodeId) (actual expected : Shape) : Build NodeId := do
  let converted ←
    if expected.kind ≠ actual.kind then Build.convert child expected.kind else pure child
  let shape ← Build.shape converted
  if shape.width < expected.width ∧ shape.isScalar then
    Build.construct expected [converted]
  else if shape.width ≠ expected.width then
    throw (.implicitConversion actual expected)
  else return converted

/-- Make one operand fit. -/
def fitChild (id : NodeId) (index : Nat) (child : NodeId) : Build Unit := do
  let n ← Build.node id
  let expected := (← get).expectedShape n index
  let actual ← Build.shape child
  if expected.isUnknown ∨ expected = actual then return
  Build.setChild id index (← fit child actual expected)

/-- Resolve a node and make its operands fit. -/
def replace (id : NodeId) : Build NodeId := do
  Build.resolve id
  let n ← Build.node id
  if n.shape.isUnknown then throw (.noMatchingOverload n.describe)
  n.children.zipIdx.forM fun (child, index) => fitChild id index child
  return id

/-- The pass that deduces types. -/
def pass : Pass := ⟨"DeduceTypes", .upward, replace⟩

end LaneGraph.Typing
