import LaneGraph.Code.Program
import LaneGraph.Machine.Native
import LaneGraph.Stream.Buffer

/-!
# Binding

Before a program runs, each of its slots is given a stream or function. Streams
are matched by name or by position; a slot named after a component may be served
by that component of a vector stream. Sizes are checked here, and with them all
overflows, so that running stays within the buffers.
-/

namespace LaneGraph

/-- How streams are bound to a program. -/
structure ExecuteFlags where
  /-- Match by name instead of by position. -/
  byName : Bool := true
  /-- Serve component slots from vector streams; by name only. -/
  splitVectors : Bool := true
  /-- Leave out outputs without a stream. -/
  allowMissingOutputs : Bool := true
deriving DecidableEq, Repr, Inhabited

namespace ExecuteFlags

/-- Binding by name with all conveniences. -/
def userFriendly : ExecuteFlags := ⟨true, true, true⟩

/-- Binding by position, one stream per slot. -/
def bestPerformance : ExecuteFlags := ⟨false, false, false⟩

end ExecuteFlags

namespace Binding

/-- Where a slot found its stream: the stream's position and, if the slot is a
component of it, which one. -/
structure Place where
  /-- Position of the stream. -/
  stream : Nat
  /-- The component that serves the slot. -/
  component : Option Component
deriving DecidableEq, Repr

/-- Split a name that ends with a point and a component letter. -/
def componentName? (name : String) : Option (String × Component) :=
  match name.toList.reverse with
  | letter :: '.' :: base =>
    (Component.ofLetter? letter).map fun c => (String.ofList base.reverse, c)
  | _ => none

/-- Find the stream of a slot by name. A stream of the slot's own name comes
before a vector stream with the component. -/
def locate? (flags : ExecuteFlags) (streams : List Channel) (slot : Channel) : Option Place :=
  match streams.findIdx? (·.name == slot.name) with
  | some stream => some ⟨stream, none⟩
  | none =>
    if !flags.splitVectors then none
    else
      match componentName? slot.name with
      | none => none
      | some (base, c) =>
        (streams.findIdx? fun s => s.name == base && c.index < s.format.count).map
          fun stream => ⟨stream, some c⟩

/-- The stream of each slot. By position there must be as many streams as slots,
or no more if slots may stay without one. -/
def places (side : Side) (flags : ExecuteFlags) (allowMissing : Bool)
    (streams slots : List Channel) : Except MachineError (List (Option Place)) :=
  if flags.byName then .ok (slots.map (locate? flags streams))
  else
    let fits :=
      if allowMissing then streams.length ≤ slots.length else streams.length = slots.length
    if fits then
      .ok ((List.range slots.length).map fun i =>
        if i < streams.length then some ⟨i, none⟩ else none)
    else .error (.streamCountMismatch side slots.length streams.length)

/-- The elements that serve a slot, if the stream has the right kind and is long
enough. A whole stream has to be scalar. -/
def view (o : Overflow) (slot : Channel) (component : Option Component) (s : Stream)
    (instances : Nat) : Except MachineError ElementView :=
  let format := s.channel.format
  let expected := slot.format.encoding.kind
  if format.encoding.kind ≠ expected ∨ (component.isNone ∧ format.count ≠ 1) then
    .error (.streamTypeMismatch s.channel.name expected format)
  else
    let offset := ((component.map Component.index).getD 0) * format.encoding.size
    match requiredBytes? o instances s.stride offset format.encoding.size with
    | none => .error .accessOutOfBounds
    | some required =>
      if s.length < required then .error (.streamTooSmall s.channel.name required s.length)
      else .ok ⟨offset, s.stride, format.encoding⟩

/-- An input slot bound to elements of a stream. -/
structure BoundInput where
  /-- The stream. -/
  stream : Stream
  /-- The elements. -/
  view : ElementView
deriving DecidableEq, Repr

/-- An output slot bound to elements of a stream, which is named by position
since slots may share it. -/
structure BoundOutput where
  /-- Position of the stream. -/
  stream : Nat
  /-- The elements. -/
  view : ElementView
deriving DecidableEq, Repr

/-- Bind one input slot. The bytes before the first element are skipped. -/
def bindInput (streams : List Stream) (instances : Nat) (slot : Channel) (place : Option Place) :
    Except MachineError BoundInput := do
  match place.bind fun p => (streams[p.stream]?).map fun s => (p, s) with
  | none => throw (.inputNotFound slot.name)
  | some (p, s) =>
    let v ← view .faults slot p.component s instances
    return ⟨s.withOffset v.offset, { v with offset := 0 }⟩

/-- Bind all input slots. -/
def bindInputs (flags : ExecuteFlags) (p : Program) (streams : List Stream) (instances : Nat) :
    Except MachineError (List BoundInput) := do
  let found ← places .input flags false (streams.map (·.channel)) p.inputs
  (p.inputs.zip found).mapM fun (slot, place) => bindInput streams instances slot place

/-- Bind one output slot; nothing if it may stay without a stream. -/
def bindOutput (flags : ExecuteFlags) (streams : List Stream) (instances : Nat) (slot : Channel)
    (place : Option Place) : Except MachineError (Option BoundOutput) := do
  match place.bind fun p => (streams[p.stream]?).map fun s => (p, s) with
  | none => if flags.allowMissingOutputs then return none else throw (.outputNotFound slot.name)
  | some (p, s) => return some ⟨p.stream, ← view .faults slot p.component s instances⟩

/-- Bind all output slots. -/
def bindOutputs (flags : ExecuteFlags) (p : Program) (streams : List Stream) (instances : Nat) :
    Except MachineError (List (Option BoundOutput)) := do
  let found ← places .output flags flags.allowMissingOutputs (streams.map (·.channel)) p.outputs
  (p.outputs.zip found).mapM fun (slot, place) => bindOutput flags streams instances slot place

/-- Find the native function of a slot by its symbol; the whole signature has to
agree. -/
def bindFunction (functions : List Function) (slot : Signature) : Except MachineError Native :=
  match functions.find? (·.signature.symbol == slot.symbol) with
  | none => .error (.functionNotFound slot.symbol)
  | some f =>
    if f.signature = slot then .ok f.native
    else .error (.functionSignatureMismatch slot.symbol)

/-- Find all native functions. -/
def bindFunctions (functions : List Function) (p : Program) : Except MachineError (List Native) :=
  p.functions.mapM (bindFunction functions)

end Binding

end LaneGraph
