import LaneGraph.Graph.Node

/-!
# Causes why a graph is refused

Each cause carries what its message needs. Two causes are not reported to
users of a well-built graph: a reference that leads out of the arena, and a
replacement that does not settle within its bound.
-/

namespace LaneGraph

/-- Why a graph could not be built or transformed. -/
inductive GraphError where
  /-- No type of the operator, or no candidate function, fits. -/
  | noMatchingOverload (op : String)
  /-- An operand has the wrong width and is no scalar to be spread. -/
  | implicitConversion (actual expected : Shape)
  /-- A cross product of something other than three-component vectors. -/
  | crossRequiresThree (width : Nat)
  /-- A component that the operand does not have. -/
  | invalidSubscript (component : Component) (what : String) (shape : Shape)
  /-- A selection that cannot be split into scalars. -/
  | scalarizationFailed (components : Nat)
  /-- A constructor that still joins several scalars. -/
  | constructorTooManyArguments (shape : Shape) (count : Nat)
  /-- A node of unknown shape reached the final check. -/
  | unresolvedShape (op : String)
  /-- An operator or call without a chosen type reached the final check. -/
  | unresolvedOverload (op : String)
  /-- A call with fewer arguments than required. -/
  | notEnoughArguments (function : String) (required given : Nat)
  /-- An operand whose shape is not the expected one. -/
  | argumentMismatch (op : String) (index : Nat) (expected actual : Shape)
  /-- A constructor reached the final check. -/
  | unexpectedConstructor
  /-- An output was replaced by something else. -/
  | invalidOutputTransform (name : String)
  /-- A checked reference that leads out of the arena. -/
  | invalidNode (id : NodeId)
  /-- There is nothing to compute. -/
  | noOutputs
  /-- An unchecked reference that leads out of the arena. -/
  | missingNode (id : NodeId)
  /-- Replacement went deeper than an acyclic graph allows. -/
  | unsettled
deriving DecidableEq, Repr

/-- A node reference in messages. -/
def nodeText (id : NodeId) : String := "n" ++ toString id

namespace GraphError

/-- The message of a cause. -/
def message : GraphError → String
  | noMatchingOverload op => "no matching overload found for '" ++ op ++ "'"
  | implicitConversion actual expected =>
    "cannot implicitly convert '" ++ actual.name ++ "' to '" ++ expected.name ++ "'"
  | crossRequiresThree width =>
    "cross product is only defined for vec3, got " ++ toString width ++ " elements"
  | invalidSubscript c what shape =>
    "invalid subscript ." ++ String.singleton c.letter ++ " for '" ++ what ++ "' of type '" ++
      shape.name ++ "'"
  | scalarizationFailed n =>
    "failed to scalarize swizzle with " ++ toString n ++ " components"
  | constructorTooManyArguments shape count =>
    "constructor of type '" ++ shape.name ++ "' has too many arguments (" ++ toString count ++ ")"
  | unresolvedShape op => "unresolved return type on '" ++ op ++ "'"
  | unresolvedOverload op => "unresolved overload on '" ++ op ++ "'"
  | notEnoughArguments function required given =>
    "not enough arguments for function '" ++ function ++ "': expected at least " ++
      toString required ++ ", got " ++ toString given
  | argumentMismatch op index expected actual =>
    "invalid data type for argument " ++ toString index ++ " on '" ++ op ++ "': expected " ++
      expected.name ++ ", got " ++ actual.name
  | unexpectedConstructor => "internal error: constructor call remains after lowering"
  | invalidOutputTransform name =>
    "transform of output '" ++ name ++ "' did not produce an output node"
  | invalidNode id => "invalid node reference " ++ nodeText id
  | noOutputs => "expression graph has no outputs"
  | missingNode id => "reference to missing node " ++ nodeText id
  | unsettled => "replacement did not settle"

end GraphError

end LaneGraph
