import LaneGraph.Arithmetic.Integer
import LaneGraph.Literal
import LaneGraph.Word.Fingerprint

/-!
# Native functions

A native function is given one register per argument over all batches and
returns one register over all batches. It may look at named global values. Most
functions work lane by lane.
-/

namespace LaneGraph

/-- One register over all batches. -/
abbrev Column (batches : Nat) := Vector Lanes batches

/-- Choose between two registers over all batches, lane by lane. -/
def selectColumns {batches : Nat} (mask ifSet ifClear : Column batches) : Column batches :=
  Vector.ofFn fun batch : Fin batches => Lanes.select mask[batch] ifSet[batch] ifClear[batch]

/-- Named values that every function can see. -/
abbrev Globals := List (String × Scalar)

/-- Set a global value. A name keeps its place when its value is replaced. -/
def Globals.insert (g : Globals) (name : String) (value : Scalar) : Globals :=
  if g.any (·.1 == name) then g.map fun entry => if entry.1 == name then (name, value) else entry
  else g ++ [(name, value)]

/-- A native function. -/
structure Native where
  /-- The result over all batches, from the arguments over all batches. -/
  run : (batches : Nat) → List (Column batches) → Globals → Column batches

namespace Native

/-- A function that works lane by lane. -/
def ofLanes (f : List UInt32 → Globals → UInt32) : Native where
  run batches arguments globals :=
    Vector.ofFn fun batch : Fin batches =>
      Lanes.ofFn fun lane => f (arguments.map fun column => column[batch].get lane) globals

/-- A function of a seed and an optional offset. Without arguments it is
zero. -/
def seeded (f : Int32 → Int32 → UInt32) : Native :=
  ofLanes fun arguments _ =>
    match arguments with
    | [] => 0
    | [seed] => f seed.toInt32 0
    | seed :: offset :: _ => f seed.toInt32 offset.toInt32

/-- Uniform numbers in `[0, 1)`. -/
def random : Native := seeded fun seed offset => (Mixer.unit seed offset).bits

/-- Uniform non-negative integers. -/
def randomInt : Native := seeded fun seed offset => (Mixer.nonNegative seed offset).toUInt32

/-- The sum of all arguments as numbers, from zero, first to last. -/
def sumFloats : Native :=
  ofLanes fun arguments _ => (arguments.foldl (fun sum a => sum.add ⟨a⟩) (0 : Single)).bits

/-- The wrapping sum of all arguments as integers. -/
def sumInts : Native :=
  ofLanes fun arguments _ => (arguments.foldl (fun sum a => sum + a.toInt32) (0 : Int32)).toUInt32

/-- The first argument times a global number; the factor is one if there is no
such number. Without arguments it is zero. -/
def scaledBy (name : String) : Native :=
  ofLanes fun arguments globals =>
    let factor := match globals.lookup name with
      | some (.float x) => x
      | _ => 1
    match arguments with
    | [] => 0
    | a :: _ => (Single.mul ⟨a⟩ factor).bits

/-- A global value in every lane; zero if there is none. -/
def globalValue (name : String) : Native :=
  ofLanes fun _ globals => ((globals.lookup name).map Scalar.bits).getD 0

/-- The number of arguments in every lane. -/
def argumentCount : Native :=
  ofLanes fun arguments _ => (Int32.ofNat arguments.length).toUInt32

end Native

/-- A native function with its signature. -/
structure Function where
  /-- What it takes and returns. -/
  signature : Signature
  /-- What it does. -/
  native : Native

namespace Function

/-- Uniform numbers from a seed and an optional offset. -/
def random : Function :=
  ⟨(Signature.ofInputs "random" [.int, .int] .float).withRequired 1, Native.random⟩

/-- Uniform integers from a seed and an optional offset. -/
def randomInt : Function :=
  ⟨(Signature.ofInputs "random_int" [.int, .int] .int).withRequired 1, Native.randomInt⟩

/-- The functions that every machine starts with. -/
def builtins : List Function := [random, randomInt]

end Function

end LaneGraph
