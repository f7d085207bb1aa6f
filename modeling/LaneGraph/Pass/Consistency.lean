import LaneGraph.Pass.Sweep

/-!
# Final check

A graph may be encoded only if every node is resolved, no constructor is left,
every call has its arguments, and every operand has the expected shape.
-/

namespace LaneGraph.Consistency

/-- Check what concerns a node alone. -/
def checkNode (g : Graph) (n : Node) : Except GraphError Unit :=
  if n.shape.isUnknown then .error (.unresolvedShape n.describe)
  else
    match n.op with
    | .construct _ => .error .unexpectedConstructor
    | .constant value =>
      if value.isValid then .ok () else .error (.unresolvedShape n.describe)
    | .unary _ _ | .binary _ _ _ | .ternary _ _ _ _ =>
      if n.overload.isNone then .error (.unresolvedOverload n.describe) else .ok ()
    | .call _ arguments =>
      match g.chosen? n with
      | none => .error (.unresolvedOverload n.describe)
      | some s =>
        if arguments.length < s.required then
          .error (.notEnoughArguments s.name s.required arguments.length)
        else .ok ()
    | _ => .ok ()

/-- Check one operand of a node. -/
def checkChild (g : Graph) (n : Node) (index : Nat) (child : NodeId) :
    Except GraphError Unit := do
  let expected := g.expectedShape n index
  let actual := (← g.node child).shape
  if !expected.isUnknown && expected ≠ actual then
    throw (.argumentMismatch n.describe index expected actual)

/-- Check a node and its operands. -/
def check (g : Graph) (id : NodeId) : Except GraphError Unit := do
  let n ← g.node id
  checkNode g n
  n.children.zipIdx.forM fun (child, index) => checkChild g n index child

/-- The pass that checks and changes nothing. -/
def pass : Pass := ⟨"Validate", .downward, fun id => do Build.ask (check · id); return id⟩

end LaneGraph.Consistency
