import LaneGraph.Exchange.Codec
import LaneGraph.Exchange.Writer
import LaneGraph.Sample

/-!
# The command line

The command compiles a sample, shows its listing or its document if asked to,
runs it and prints a table of its streams. Each option may be given once. A
value follows its option as the next argument or after an equals sign; as the
next argument it may not look like an option.
-/

namespace LaneGraph

/-- The options as given so far. -/
structure CommandOptions where
  /-- Which sample to run. -/
  sample : Option Sample := none
  /-- How many instances to run. -/
  instances : Option Nat := none
  /-- Show the listing. -/
  disassemble : Bool := false
  /-- Show the program as a document. -/
  json : Bool := false
  /-- Record the stages of the pipeline. -/
  tracePasses : Bool := false
deriving DecidableEq, Repr

namespace CommandOptions

/-- A number of instances: decimal digits, with or without a plus sign, below
`2 ^ 64`. -/
def count? (s : String) : Option Nat :=
  let digits := match s.toList with
    | '+' :: rest => rest
    | cs => cs
  if digits.isEmpty || !digits.all Char.isDigit then none
  else
    let n := digits.foldl (fun n c => 10 * n + (c.toNat - 48)) 0
    if n < 2 ^ 64 then some n else none

/-- Choose the sample. -/
def setSample? (o : CommandOptions) (value : String) : Option CommandOptions :=
  if o.sample.isSome then none
  else (Sample.ofName? value).map fun s => { o with sample := some s }

/-- Choose the number of instances. -/
def setInstances? (o : CommandOptions) (value : String) : Option CommandOptions :=
  if o.instances.isSome then none
  else (count? value).map fun n => { o with instances := some n }

/-- Set an option that takes a value. -/
def setValue? (o : CommandOptions) (name value : String) : Option CommandOptions :=
  if name = "--program" then o.setSample? value
  else if name = "--instances" then o.setInstances? value
  else none

/-- Set an option that takes no value. -/
def setFlag? (o : CommandOptions) (name : String) : Option CommandOptions :=
  if name = "--disassemble" then
    if o.disassemble then none else some { o with disassemble := true }
  else if name = "--json" then
    if o.json then none else some { o with json := true }
  else if name = "--trace-passes" then
    if o.tracePasses then none else some { o with tracePasses := true }
  else none

/-- The option takes a value. -/
def takesValue (name : String) : Bool := name = "--program" || name = "--instances"

/-- Split an argument at its first equals sign. -/
def splitValue? (argument : String) : Option (String × String) :=
  match argument.toList.span (· ≠ '=') with
  | (name, _ :: value) => some (String.ofList name, String.ofList value)
  | (_, []) => none

/-- The argument looks like an option. -/
def looksLikeOption (argument : String) : Bool :=
  match argument.toList with
  | '-' :: _ => true
  | _ => false

/-- Read arguments after those read already. Two hyphens alone end the options;
nothing may follow them. -/
def parseFrom? : CommandOptions → List String → Option CommandOptions
  | o, [] => some o
  | o, ["--"] => some o
  | o, [argument] =>
    match splitValue? argument with
    | some (name, value) => o.setValue? name value
    | none => o.setFlag? argument
  | o, argument :: next :: rest =>
    match splitValue? argument with
    | some (name, value) => (o.setValue? name value).bind fun o => parseFrom? o (next :: rest)
    | none =>
      if takesValue argument then
        if looksLikeOption next then none
        else (o.setValue? argument next).bind fun o => parseFrom? o rest
      else (o.setFlag? argument).bind fun o => parseFrom? o (next :: rest)

/-- Read the arguments of the command. -/
def parse? (arguments : List String) : Option CommandOptions := parseFrom? {} arguments

end CommandOptions

namespace CommandLine

/-- Fill a text with blanks on the left up to six characters. -/
def rightAligned (s : String) : String :=
  String.ofList (List.replicate (6 - s.length) ' ') ++ s

/-- One line of a table. -/
def row (label : String) (cells : List String) : String :=
  rightAligned label ++ " | " ++ String.intercalate " | " cells

/-- The table of some streams, one line per instance. -/
def table (streams : List Stream) (instances : Nat) : List String :=
  let columns := streams.map Stream.valueTexts
  row "#" (streams.map (·.channel.describe)) ::
    (List.range instances).map fun i =>
      row (toString i) (columns.map fun column => (column[i]?).getD "")

/-- What the command prints, or its exit code: two if the arguments are wrong
and one if the sample fails. -/
def output (arguments : List String) : Except UInt8 (List String) :=
  match CommandOptions.parse? arguments with
  | none => .error 2
  | some o =>
    let instances := o.instances.getD 10
    match (o.sample.getD .offset).run { tracePasses := o.tracePasses } instances with
    | .error _ => .error 1
    | .ok run =>
      .ok ((if o.disassemble then run.program.listing else []) ++
        (if o.json then (Exchange.write run.program).pretty else []) ++
        table (run.inputs ++ run.outputs) instances)

end CommandLine

end LaneGraph
