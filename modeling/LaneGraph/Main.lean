import LaneGraph.CommandLine

/-!
# Entry point

Prints what the command line says and returns its exit code.
-/

/-- Run the command. -/
def main (arguments : List String) : IO UInt32 := do
  match LaneGraph.CommandLine.output arguments with
  | .ok lines =>
    for line in lines do
      IO.println line
    return 0
  | .error code => return code.toUInt32
