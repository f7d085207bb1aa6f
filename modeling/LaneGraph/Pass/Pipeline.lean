import LaneGraph.Graph.Sharing
import LaneGraph.Pass.Consistency
import LaneGraph.Pass.Folding
import LaneGraph.Pass.Lowering
import LaneGraph.Pass.Scalars
import LaneGraph.Pass.Typing
import LaneGraph.Pass.Vectors

/-!
# The pipeline

The passes in their fixed order bring a graph into the form in which every node
is one instruction. The first failure ends the pipeline.
-/

namespace LaneGraph

namespace Sharing

/-- The pass that replaces equal nodes by one representative. -/
def pass : Pass := ⟨"EliminateCommonSubexpressions", .upward, Build.share⟩

end Sharing

namespace Pipeline

/-- The passes of the pipeline. -/
def passes : List Pass :=
  [Typing.pass, Vectors.pass, Scalars.inputPass, Scalars.swizzlePass, Folding.pass,
   Lowering.pass, Sharing.pass, Consistency.pass]

/-- The pass with a name. -/
def pass? (name : String) : Option Pass := passes.find? (·.name == name)

/-- A finished stage and how many nodes the outputs then depend on. -/
structure Stage where
  /-- Name of the stage. -/
  name : String
  /-- Nodes the outputs depend on. -/
  reachable : Nat
deriving DecidableEq, Repr

/-- Report a finished stage, if reports are wanted. -/
def report (wanted : Bool) (name : String) : Build (List Stage) := do
  if wanted then return [⟨name, ← Build.ask (·.reachableCount)⟩] else return []

/-- Run a pass and report it. -/
def stage (wanted : Bool) (pass : Pass) : Build (List Stage) := do
  pass.run
  report wanted pass.name

/-- Run all passes in order. -/
def run (wanted : Bool) : Build (List Stage) := do
  let typing ← stage wanted Typing.pass
  let vectors ← stage wanted Vectors.pass
  Scalars.splitInputTable
  let inputs ← stage wanted Scalars.inputPass
  Scalars.splitOutputs
  let outputs ← report wanted "ScalarizeOutputs"
  let swizzles ← stage wanted Scalars.swizzlePass
  let folding ← stage wanted Folding.pass
  let lowering ← stage wanted Lowering.pass
  let refolding ← stage wanted Folding.pass
  Build.forgetRepresentatives
  let sharing ← stage wanted Sharing.pass
  let consistency ← stage wanted Consistency.pass
  return typing ++ vectors ++ inputs ++ outputs ++ swizzles ++ folding ++ lowering ++
    refolding ++ sharing ++ consistency

end Pipeline

end LaneGraph
