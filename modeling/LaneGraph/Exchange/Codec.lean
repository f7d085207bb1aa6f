import LaneGraph.Compiler
import LaneGraph.Decimal.Shortest
import LaneGraph.Exchange.Document
import LaneGraph.Machine.Binding

/-!
# Values as documents

A name of a closed list is a text, or a record whose only field has that name
and no value. A structure is a record of its fields, or a list of them in order.
When reading a record, fields that the structure does not have are skipped, and
fields that it does have must be there, unless it is one of the settings, where
each missing field keeps its usual value. Nothing is clamped: an integer outside
the range of its field is refused.
-/

namespace LaneGraph

/-- Values that are exchanged as documents. -/
class Exchange (α : Type) where
  /-- The document of a value. -/
  write : α → Document
  /-- The value of a document, if it has the right form. -/
  read? : Document → Option α

namespace Exchange

/-- The values of fields in order, where a list may be shorter than the fields
but not longer. -/
def fields? (names : List String) : Document → Option (List (Option Document))
  | .record entries => some (names.map fun name => entries.lookup name)
  | .list items =>
    if items.length ≤ names.length then
      some (items.map some ++ List.replicate (names.length - items.length) none)
    else none
  | _ => none

/-- A field that must be there. -/
def required? {α : Type} [Exchange α] (field : Option Document) : Option α := field.bind read?

/-- A field that may be left out. -/
def optional? {α : Type} [Exchange α] (usual : α) : Option Document → Option α
  | none => some usual
  | some document => read? document

/-- The name that a document spells. -/
def spelled? : Document → Option String
  | .text s => some s
  | .record [(s, .null)] => some s
  | _ => none

/-- The value with a name in a table. -/
def named? {α : Type} (table : List (α × String)) (document : Document) : Option α :=
  (spelled? document).bind fun s => (table.find? (·.2 == s)).map (·.1)

/-- The name of a value in a table. -/
def nameOf {α : Type} [BEq α] (table : List (α × String)) (value : α) : Document :=
  .text ((table.lookup value).getD "")

/-! ## Plain values -/

instance : Exchange Bool where
  write := .bool
  read? := Document.bool?

instance : Exchange String where
  write := .text
  read? := Document.text?

instance : Exchange UInt32 where
  write w := .integer w.toNat
  read? document := (document.natBelow? (2 ^ 32)).map UInt32.ofNat

instance : Exchange Int32 where
  write n := .integer n.toInt
  read? document := document.integer?.bind fun n =>
    if -2 ^ 31 ≤ n ∧ n < 2 ^ 31 then some (Int32.ofInt n) else none

instance {α : Type} [Exchange α] : Exchange (List α) where
  write items := .list (items.map write)
  read? document := document.list?.bind fun items => items.mapM read?

/-- The number nearest to the double that a decimal is brought to; none if the
decimal exceeds double precision. -/
def ofDecimal? (negative : Bool) (d : Decimal) : Option Single :=
  d.toDouble?.map fun double =>
    Single.ofSigned negative double.toFloat32.toBits.toNat

/-- The number nearest to an integer of 64 bits, rounded once. -/
def ofInteger (n : Int) : Single := Single.ofSigned (n < 0) (Single.natMagnitude n.natAbs)

/-- The exact decimal of a finite number. -/
def exactDecimal (x : Single) : Decimal :=
  if 150 ≤ x.scale then ⟨x.significand * 2 ^ (x.scale - 150), 0⟩
  else ⟨x.significand * 5 ^ (150 - x.scale), -((150 - x.scale : Nat) : Int)⟩

/-- Numbers are written exactly; those that are not finite have no number. -/
instance : Exchange Single where
  write x :=
    if x.isNaN || x.isInfinite then .null else .decimal x.negative (exactDecimal x)
  read?
    | .integer n => some (ofInteger n)
    | .decimal negative magnitude => ofDecimal? negative magnitude
    | _ => none

/-! ## Names -/

/-- Names of kinds. -/
def kindNames : List (Kind × String) :=
  [(.unknown, "Unknown"), (.bool, "Bool"), (.int, "Int"), (.float, "Float")]

/-- Names of encodings. -/
def encodingNames : List (Encoding × String) :=
  [(.half, "Half"), (.float, "Float"), (.byte, "Byte"), (.short, "Short"), (.int, "Int")]

/-- Names of components. -/
def componentNames : List (Component × String) :=
  [(.x, "X"), (.y, "Y"), (.z, "Z"), (.w, "W")]

instance : Exchange Kind where
  write := nameOf kindNames
  read? := named? kindNames

instance : Exchange Encoding where
  write := nameOf encodingNames
  read? := named? encodingNames

instance : Exchange Component where
  write := nameOf componentNames
  read? := named? componentNames

instance : Exchange Opcode where
  write op := .text op.mnemonic
  read? document := (spelled? document).bind Opcode.ofMnemonic?

/-! ## Structures -/

/-- A count that is kept in one byte. -/
def byteCount? (field : Option Document) : Option Nat := field.bind (Document.natBelow? 256)

/-- A count that is kept in one word. -/
def wordCount? (field : Option Document) : Option Nat := field.bind (Document.natBelow? (2 ^ 32))

instance : Exchange Shape where
  write s := .record [("register", write s.kind), ("elements", .integer s.width)]
  read? document := do
    let [kind, width] ← fields? ["register", "elements"] document | none
    return ⟨← required? kind, ← byteCount? width⟩

instance : Exchange Format where
  write f := .record [("element", write f.encoding), ("count", .integer f.count)]
  read? document := do
    let [encoding, count] ← fields? ["element", "count"] document | none
    return ⟨← required? encoding, ← byteCount? count⟩

instance : Exchange Channel where
  write p := .record [("name", write p.name), ("data_type", write p.format)]
  read? document := do
    let [name, format] ← fields? ["name", "data_type"] document | none
    return ⟨← required? name, ← required? format⟩

instance : Exchange Signature where
  write s := .record
    [("name", write s.name), ("input_types", write s.inputs), ("output_type", write s.output),
     ("num_required_inputs", .integer s.required)]
  read? document := do
    let [name, inputs, output, required] ←
      fields? ["name", "input_types", "output_type", "num_required_inputs"] document | none
    return ⟨← required? name, ← required? inputs, ← required? output, ← byteCount? required⟩

instance : Exchange Program where
  write p := .record
    [("code", write p.code), ("inputs", write p.inputs), ("outputs", write p.outputs),
     ("functions", write p.functions), ("num_instructions", .integer p.instructionCount),
     ("num_temp_registers", .integer p.registerCount)]
  read? document := do
    let [code, inputs, outputs, functions, instructions, registers] ←
      fields? ["code", "inputs", "outputs", "functions", "num_instructions",
        "num_temp_registers"] document | none
    return ⟨← required? code, ← required? inputs, ← required? outputs, ← required? functions,
      ← wordCount? instructions, ← wordCount? registers⟩

instance : Exchange CompilerConfig where
  write c := .record
    [("verify_register_allocation", write c.verifyAllocation),
     ("trace_passes", write c.tracePasses)]
  read? document := do
    let usual : CompilerConfig := {}
    let [verify, trace] ← fields? ["verify_register_allocation", "trace_passes"] document | none
    return ⟨← optional? usual.verifyAllocation verify, ← optional? usual.tracePasses trace⟩

instance : Exchange ExecuteFlags where
  write f := .record
    [("map_streams_by_name", write f.byName), ("scalarize_streams", write f.splitVectors),
     ("allow_missing_outputs", write f.allowMissingOutputs)]
  read? document := do
    let usual := ExecuteFlags.userFriendly
    let [byName, splitVectors, allowMissing] ←
      fields? ["map_streams_by_name", "scalarize_streams", "allow_missing_outputs"] document | none
    return ⟨← optional? usual.byName byName, ← optional? usual.splitVectors splitVectors,
      ← optional? usual.allowMissingOutputs allowMissing⟩

/-- A literal is a record whose only field names its kind. -/
instance : Exchange Scalar where
  write
    | .bool b => .record [("Bool", write b)]
    | .int n => .record [("Int", write n)]
    | .float x => .record [("Float", write x)]
  read?
    | .record [("Bool", value)] => (read? value).map Scalar.bool
    | .record [("Int", value)] => (read? value).map Scalar.int
    | .record [("Float", value)] => (read? value).map Scalar.float
    | _ => none

end Exchange

end LaneGraph
