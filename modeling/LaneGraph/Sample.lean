import LaneGraph.Compiler
import LaneGraph.Graph.Build
import LaneGraph.Machine.Basic
import LaneGraph.Stream.Buffer

/-!
# Sample programs

Four small graphs with generated inputs show what the machine can do. Every
sample compiles and runs on a fresh machine.
-/

namespace LaneGraph

/-- A sample program. -/
inductive Sample where
  /-- A number plus two. -/
  | offset
  /-- A sine that fades in over a range. -/
  | wave
  /-- A random number per seed. -/
  | noise
  /-- Length and direction of a vector. -/
  | vector
deriving DecidableEq, Repr, Inhabited

namespace Sample

/-- All samples with their names. -/
def names : List (Sample × String) :=
  [(offset, "offset"), (wave, "wave"), (noise, "noise"), (vector, "vector")]

/-- The sample with a name. -/
def ofName? (s : String) : Option Sample := (names.find? (·.2 == s)).map (·.1)

/-- A stream of numbers. -/
def floatChannel (name : String) : Channel := ⟨name, Format.of .float 1⟩

/-- A stream of three-component vectors. -/
def vectorChannel (name : String) : Channel := ⟨name, Format.of .float 3⟩

/-- A stream of integers. -/
def intChannel (name : String) : Channel := ⟨name, Format.of .int 1⟩

/-- The steps that build a sample. -/
def steps : Sample → Build Unit
  | offset => do
    let x ← Build.input (floatChannel "x")
    let two ← Build.float 2
    let sum ← Build.binary .add x two
    let _ ← Build.output (floatChannel "o") sum
  | wave => do
    let x ← Build.input (floatChannel "x")
    let n ← Build.input (intChannel "n")
    let lower ← Build.float 0
    let edge ← Build.convert n .float
    let ramp ← Build.ternary .smoothStep lower edge x
    let sine ← Build.unary .sin x
    let product ← Build.binary .multiply ramp sine
    let _ ← Build.output (floatChannel "o") product
  | noise => do
    let seed ← Build.input (intChannel "seed")
    let draw ← Build.call [Function.random.signature] [seed]
    let _ ← Build.output (floatChannel "o") draw
  | vector => do
    let v ← Build.input (vectorChannel "v")
    let length ← Build.unary .length v
    let direction ← Build.unary .normalize v
    let _ ← Build.output (floatChannel "len") length
    let _ ← Build.output (vectorChannel "dir") direction

/-- The graph of a sample. -/
def graph (s : Sample) : Graph := ((steps s).runOn Graph.empty).2

/-- Equally spaced numbers from zero on. -/
def ramp (instances : Nat) (spacing : Single) : List UInt32 :=
  (List.range instances).map fun i => ((Single.ofNat i).mul spacing).bits

/-- One quarter. -/
def quarter : Single := Single.div 1 4

/-- One half. -/
def half : Single := Single.div 1 2

/-- The input streams of a sample. -/
def inputs (s : Sample) (instances : Nat) : List Stream :=
  match s with
  | offset => [Stream.ofElements (floatChannel "x") (ramp instances 1)]
  | wave =>
    let edge := Int32.ofNat (max instances 1) / 4
    [Stream.ofElements (floatChannel "x") (ramp instances quarter),
     Stream.ofElements (intChannel "n") (List.replicate instances edge.toUInt32)]
  | noise =>
    let count := (Int32.ofNat instances).toInt.toNat
    [Stream.ofElements (intChannel "seed") ((List.range count).map UInt32.ofNat)]
  | vector =>
    [Stream.ofElements (vectorChannel "v") ((List.range instances).flatMap fun i =>
      let t := Single.ofNat i
      [(t.add 1).bits, (t.mul half).bits, Single.bits 2])]

/-- The output streams of a sample, zeroed. -/
def outputs (s : Sample) (instances : Nat) : List Stream :=
  let channels := match s with
    | offset | wave | noise => [floatChannel "o"]
    | vector => [floatChannel "len", vectorChannel "dir"]
  channels.map fun channel => Stream.zeros channel instances

/-- A compiled sample with its streams after a run. -/
structure Run where
  /-- The program. -/
  program : Program
  /-- The input streams. -/
  inputs : List Stream
  /-- The output streams after the run. -/
  outputs : List Stream

/-- Why a sample failed. -/
inductive Failure where
  /-- It could not be compiled. -/
  | compilation (cause : CompileError)
  /-- It could not be run. -/
  | execution (cause : MachineError)

/-- Compile and run a sample. -/
def run (s : Sample) (config : CompilerConfig) (instances : Nat) : Except Failure Run :=
  match (Compiler.compile config s.graph).1 with
  | .error e => .error (.compilation e)
  | .ok program =>
    let machine : Machine := {}
    let inputs := s.inputs instances
    let outcome := (machine.execute program inputs (s.outputs instances) instances []).1
    match outcome.error with
    | some e => .error (.execution e)
    | none => .ok ⟨program, inputs, outcome.outputs⟩

end Sample

end LaneGraph
