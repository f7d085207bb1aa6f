import LaneGraph.Graph.Overload
import LaneGraph.Graph.Walk
import LaneGraph.Operator.Meaning
import LaneGraph.Pass.Sweep

/-!
# Values of expression graphs

The value of a node has one literal per component. It follows from the
operation of the node and the values of its operands, which are first brought to
the shapes that the operation expects: another kind is converted, and a scalar
is spread over all components. Operators that mix components are written out.
What a stream holds is given by a function from the names of scalar streams to
patterns; a component of a vector stream has the name of the vector with the
letter of the component. Calls have no value here.
-/

namespace LaneGraph

/-- One literal per component; none where there is no component, or where the
operation is not defined. -/
abbrev Value := Nat → Option Scalar

/-- An operator with one operand on literals that may be missing. -/
def UnaryOp.lift (op : UnaryOp) (target : Kind) (x : Option Scalar) : Option Scalar :=
  x.bind (op.eval? target)

/-- An operator with two operands on literals that may be missing. -/
def BinaryOp.lift (op : BinaryOp) (x y : Option Scalar) : Option Scalar :=
  x.bind fun a => y.bind (op.eval? a)

/-- An operator with three operands on literals that may be missing. A choice
needs its condition and the chosen operand. -/
def TernaryOp.lift (op : TernaryOp) (x y z : Option Scalar) : Option Scalar :=
  match op with
  | select =>
    match x with
    | some (.bool true) => y
    | some (.bool false) => z
    | _ => none
  | op => x.bind fun a => y.bind fun b => z.bind (op.eval? a b)

namespace Value

/-- The value of a missing operand. -/
def absent : Value := fun _ => none

/-- The inner product of the first components, from the first to the last. -/
def dot (x y : Value) (width : Nat) : Option Scalar :=
  (List.range (width - 1)).foldl (fun sum i =>
    BinaryOp.add.lift sum (BinaryOp.multiply.lift (x (i + 1)) (y (i + 1))))
    (BinaryOp.multiply.lift (x 0) (y 0))

/-- All components joined by an operator, from the first to the last. -/
def join (op : BinaryOp) (x : Value) (width : Nat) : Option Scalar :=
  (List.range (width - 1)).foldl (fun joined i => op.lift joined (x (i + 1))) (x 0)

/-- The root of the inner product with itself. -/
def length (x : Value) (width : Nat) : Option Scalar := UnaryOp.sqrt.lift .float (dot x x width)

/-- One component of the cross product of two three-component vectors. -/
def cross (x y : Value) (k : Nat) : Option Scalar :=
  BinaryOp.subtract.lift
    (BinaryOp.multiply.lift (x ((k + 1) % 3)) (y ((k + 2) % 3)))
    (BinaryOp.multiply.lift (x ((k + 2) % 3)) (y ((k + 1) % 3)))

/-- Two, as an integer or else as a number. -/
def two : Kind → Scalar
  | .int => .int 2
  | _ => .float 2

/-- One component of the reflection of a vector at a normal. -/
def reflect (x : Value) (kind : Kind) (normal : Value) (width k : Nat) : Option Scalar :=
  let scaled := BinaryOp.multiply.lift (dot x normal width) (some (two kind))
  BinaryOp.subtract.lift (x k) (BinaryOp.multiply.lift (normal k) scaled)

/-- The value of an operand where a shape is expected of it: a wrong kind is
converted and a scalar is spread. -/
def coerce (expected actual : Shape) (v : Value) : Value :=
  if expected.isUnknown ∨ expected = actual then v
  else fun k =>
    if k < expected.width then
      (if actual.width < expected.width then v 0 else v k).bind fun s =>
        if expected.kind = actual.kind then some s else s.convert? expected.kind
    else none

end Value

/-- One component of the value of an operator with one operand, whose width is
given. -/
def UnaryOp.component (op : UnaryOp) (kind : Kind) (width : Nat) (x : Value) (k : Nat) :
    Option Scalar :=
  match op with
  | length => x.length width
  | normalize => BinaryOp.divide.lift (x k) (x.length width)
  | all => if width ≤ 1 then all.lift kind (x k) else Value.join .logicalAnd x width
  | any => if width ≤ 1 then any.lift kind (x k) else Value.join .logicalOr x width
  | op => op.lift kind (x k)

/-- One component of the value of an operator with two operands, whose width is
given. -/
def BinaryOp.component (op : BinaryOp) (kind : Kind) (width : Nat) (x y : Value) (k : Nat) :
    Option Scalar :=
  match op with
  | dot => x.dot y width
  | cross => x.cross y k
  | reflect => x.reflect kind y width k
  | op => op.lift (x k) (y k)

/-- The name of the scalar stream that holds a component of a stream. -/
def Channel.scalarName (channel : Channel) (k : Nat) : String :=
  if channel.format.count ≤ 1 then channel.name
  else (channel.component (Component.ofIndex k)).name

namespace Node

/-- One component of the value of a node from the values of its operands. -/
def component (read : String → UInt32) (n : Node) (values : List Value) (k : Nat) :
    Option Scalar :=
  let x := values.getD 0 Value.absent
  let y := values.getD 1 Value.absent
  let z := values.getD 2 Value.absent
  match n.op with
  | .constant c => (c.bits[k]?).bind (Scalar.ofBits? c.kind)
  | .input channel => Scalar.ofBits? channel.format.encoding.kind (read (channel.scalarName k))
  | .output _ _ => x k
  | .unary op _ => op.component n.shape.kind n.inputWidth x k
  | .binary op _ _ => op.component n.shape.kind n.inputWidth x y k
  | .ternary op _ _ _ => op.lift (x k) (y k) (z k)
  | .swizzle components _ => (components[k]?).bind fun c => x c.index
  | .construct _ => (values[k]?).bind (· 0)
  | .call _ _ => none

/-- The value of a node from the values of its operands. -/
def meaning (read : String → UInt32) (n : Node) (values : List Value) : Value := fun k =>
  if k < n.shape.width then n.component read values k else none

/-- A node without its operands and its fingerprint: what it does, and what is
known about its type. -/
def frame (n : Node) : Node := { n with op := n.op.mapChildren fun _ => 0, fingerprint := 0 }

end Node

namespace Operation

/-- Operands are mapped in order. -/
@[simp] theorem children_mapChildren (op : Operation) (f : NodeId → NodeId) :
    (op.mapChildren f).children = op.children.map f := by
  cases op <;> rfl

/-- Mapping operands twice is mapping them once. -/
@[simp] theorem mapChildren_mapChildren (op : Operation) (f h : NodeId → NodeId) :
    (op.mapChildren f).mapChildren h = op.mapChildren (h ∘ f) := by
  cases op <;> simp [mapChildren]

end Operation

namespace Node

/-- Redirecting operands keeps the frame. -/
theorem frame_mapChildren (n : Node) (f : NodeId → NodeId) :
    ({ n with op := n.op.mapChildren f } : Node).frame = n.frame := by
  unfold frame
  rw [Operation.mapChildren_mapChildren]
  rfl

/-- Nodes of one frame have the same value of the same operands. -/
theorem meaning_frame (read : String → UInt32) (n : Node) (values : List Value) :
    n.frame.meaning read values = n.meaning read values := by
  have hcomponent : ∀ k, n.frame.component read values k = n.component read values k := by
    intro k
    unfold component frame
    cases n.op <;> rfl
  funext k
  unfold meaning
  rw [hcomponent k]
  rfl

/-- The value of a node has no more components than its shape. -/
theorem meaning_eq_none {read : String → UInt32} {n : Node} {values : List Value} {k : Nat}
    (h : n.shape.width ≤ k) : n.meaning read values k = none := by
  unfold meaning
  rw [if_neg (by omega)]

end Node

namespace Graph

/-- The shape of a node; unknown if there is no such node. -/
def shapeAt (g : Graph) (id : NodeId) : Shape :=
  match g.node? id with
  | some n => n.shape
  | none => Shape.unknown

/-- The values of the operands of a node, brought to the shapes that it
expects. -/
def operandValues (g : Graph) (n : Node) (value : NodeId → Value) : List Value :=
  n.children.zipIdx.map fun (child, index) =>
    Value.coerce (g.expectedShape n index) (g.shapeAt child) (value child)

/-- The value of a node, following operands up to a depth. -/
def valueTo (g : Graph) (read : String → UInt32) : Nat → NodeId → Value
  | 0, _ => Value.absent
  | depth + 1, id =>
    match g.node? id with
    | some n => n.meaning read (g.operandValues n (g.valueTo read depth))
    | none => Value.absent

/-- The value of a node. -/
def value (g : Graph) (read : String → UInt32) (id : NodeId) : Value :=
  g.valueTo read g.walkDepth id

/-- The shape of a node of the arena. -/
theorem shapeAt_eq {g : Graph} {id : NodeId} {n : Node} (h : g.node? id = some n) :
    g.shapeAt id = n.shape := by
  unfold shapeAt
  rw [h]

end Graph

end LaneGraph
