import LaneGraph.Pass.Sweep

/-!
# Splitting vectors into scalars

Vector streams become one stream per component, and a selected component of an
expression becomes the same expression of selected components. Afterwards every
output is scalar and every node that is left computes one component.
-/

namespace LaneGraph.Scalars

/-- The one-component streams of a stream. A scalar stream is its own. -/
def componentChannels (channel : Channel) : List Channel :=
  if channel.format.count = 1 then [channel]
  else (Component.all.take channel.format.count).map channel.component

/-- Replace the vector streams of the input table by their components, in
place. -/
def splitInputTable : Build Unit :=
  modify fun g => { g with inputs := g.inputs.flatMap componentChannels }

/-- Replace a vector input by a constructor over its component streams. -/
def splitInput (id : NodeId) : Build NodeId := do
  let n ← Build.node id
  match n.op with
  | .input channel =>
    if channel.format.count ≤ 1 then return id
    else
      let parts ← (Component.all.take channel.format.count).mapM fun c =>
        Build.input (channel.component c)
      Build.construct n.shape parts
  | _ => return id

/-- The pass that splits vector inputs. -/
def inputPass : Pass := ⟨"ScalarizeInputs", .upward, splitInput⟩

/-- Replace a vector output by one output per component of its expression. -/
def splitOutput (id : NodeId) : Build (List NodeId) := do
  let n ← Build.ask (·.checkedNode id)
  match n.op with
  | .output channel source =>
    if channel.format.count ≤ 1 then return [id]
    else
      (Component.all.take channel.format.count).mapM fun c => do
        let part ← Build.swizzle [c] source
        Build.unlistedOutput (channel.component c) part
  | _ => throw (.invalidOutputTransform (nodeText id))

/-- Split all vector outputs, in place. -/
def splitOutputs : Build Unit := do
  let parts ← (← get).outputs.mapM splitOutput
  modify fun g => { g with outputs := parts.flatten }

/-- One component of an expression. Selections of selections are followed to the
end; the walk is bounded by the number of nodes. -/
def extract : Nat → NodeId → Component → Build NodeId
  | 0, _, _ => throw .unsettled
  | depth + 1, id, c => do
    let n ← Build.node id
    if n.shape.isScalar ∧ c = .x then return id
    let invalid := GraphError.invalidSubscript c n.describe n.shape
    match n.op with
    | .constant value =>
      match value.component? c with
      | some s => Build.scalar s
      | none => throw invalid
    | .swizzle components source =>
      match components[c.index]? with
      | some inner => extract depth source inner
      | none => throw invalid
    | .input channel =>
      if channel.format.count ≤ c.index then throw invalid
      else Build.input (channel.component c)
    | .construct arguments =>
      match arguments[c.index]? with
      | some argument => return argument
      | none => throw invalid
    | .unary op operand =>
      let operand ← Build.swizzle [c] operand
      if op = .convert then Build.convert operand n.shape.kind else Build.unary op operand
    | .binary op left right =>
      let left ← Build.swizzle [c] left
      let right ← Build.swizzle [c] right
      Build.binary op left right
    | .ternary op first second third =>
      let first ← Build.swizzle [c] first
      let second ← Build.swizzle [c] second
      let third ← Build.swizzle [c] third
      Build.ternary op first second third
    | .call candidates arguments =>
      match n.overload.bind (candidates[·]?) with
      | some chosen =>
        let arguments ← arguments.mapM (Build.swizzle [c])
        Build.callKnown [chosen] arguments
      | none => throw (.unresolvedOverload n.describe)
    | .output _ _ => throw (.scalarizationFailed 1)

/-- Replace the selection of one component by that component. -/
def splitSwizzle (id : NodeId) : Build NodeId := do
  let n ← Build.node id
  match n.op with
  | .swizzle [c] source => extract ((← get).nodes.size + 1) source c
  | .swizzle components _ => throw (.scalarizationFailed components.length)
  | _ => return id

/-- The pass that resolves selections. -/
def swizzlePass : Pass := ⟨"ScalarizeVectorInstructions", .downward, splitSwizzle⟩

end LaneGraph.Scalars
