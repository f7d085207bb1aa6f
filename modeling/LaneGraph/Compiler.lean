import LaneGraph.Pass.Pipeline
import LaneGraph.Schedule.Emission

/-!
# Compilation

A graph is brought into machine form by the pipeline, put into a line, given
registers and written out as a program. The graph is changed in place, also when
compilation fails.
-/

namespace LaneGraph

/-- Settings of a compilation. -/
structure CompilerConfig where
  /-- Check the registers of every pair of values. -/
  verifyAllocation : Bool := true
  /-- Report the stages of the pipeline. -/
  tracePasses : Bool := false
deriving DecidableEq, Repr, Inhabited

namespace Compiler

/-- Run the pipeline and put the result into a line with registers. -/
def allocate (config : CompilerConfig) (g : Graph) :
    Except CompileError (Schedule × Allocation) × Graph :=
  if g.outputs.isEmpty then (.error .noOutputs, g)
  else
    match (Pipeline.run config.tracePasses).runOn g with
    | (.error e, g) => (.error (.transform e), g)
    | (.ok _, g) =>
      match Schedule.ofGraph g with
      | .error e => (.error e, g)
      | .ok schedule => (.ok (schedule, Allocation.ofIntervals schedule.intervals.toList), g)

/-- Compile a graph. -/
def compile (config : CompilerConfig) (g : Graph) : Except CompileError Program × Graph :=
  match allocate config g with
  | (.error e, g) => (.error e, g)
  | (.ok (schedule, allocation), g) =>
    let verified :=
      if config.verifyAllocation then Allocation.verify schedule.intervals.toList allocation
      else .ok ()
    match verified with
    | .error e => (.error e, g)
    | .ok () => (Emission.program ⟨g, schedule, allocation⟩, g)

/-- The lifetimes of the values of a compiled graph, with their registers. -/
def liveIntervals (config : CompilerConfig) (g : Graph) :
    Except CompileError (List (Interval × Nat)) × Graph :=
  match allocate config g with
  | (.error e, g) => (.error e, g)
  | (.ok (schedule, allocation), g) =>
    (.ok (schedule.intervals.toList.zip allocation.registers), g)

end Compiler

end LaneGraph
