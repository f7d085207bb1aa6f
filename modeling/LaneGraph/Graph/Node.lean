import LaneGraph.Literal
import LaneGraph.Operator
import LaneGraph.Stream.Format

/-!
# Nodes of an expression graph

A node is one operation together with what has been found out about its type.
Operands are referred to by position in the arena that holds the nodes, so one
node may serve any number of others.
-/

namespace LaneGraph

/-- Position of a node in its arena. An arena holds at most `2 ^ 32` nodes, so that every
position is a word of 32 bits. The bound is not part of the type: what is said of graphs
holds of all that keep to it, and where positions are written into instructions it is
asked for, as the addressability of a graph. -/
abbrev NodeId := Nat

/-- Position of a signature in the function table of a graph. -/
abbrev FunctionId := Nat

/-- What a node does. -/
inductive Operation where
  /-- An operator with one operand. -/
  | unary (op : UnaryOp) (operand : NodeId)
  /-- An operator with two operands. -/
  | binary (op : BinaryOp) (left right : NodeId)
  /-- An operator with three operands. -/
  | ternary (op : TernaryOp) (first second third : NodeId)
  /-- A literal. -/
  | constant (value : Constant)
  /-- A selection of components. -/
  | swizzle (components : List Component) (source : NodeId)
  /-- A value read from a stream. -/
  | input (channel : Channel)
  /-- A value written to a stream. -/
  | output (channel : Channel) (source : NodeId)
  /-- A call of one of several candidate functions. -/
  | call (candidates : List FunctionId) (arguments : List NodeId)
  /-- A vector put together from parts; its shape is the shape of the node. -/
  | construct (arguments : List NodeId)
deriving DecidableEq, Repr

namespace Operation

/-- The operands in order. -/
def children : Operation → List NodeId
  | unary _ x => [x]
  | binary _ l r => [l, r]
  | ternary _ a b c => [a, b, c]
  | constant _ | input _ => []
  | swizzle _ x | output _ x => [x]
  | call _ args | construct args => args

/-- Replace the operand at a position. Positions without an operand are
ignored. -/
def setChild (op : Operation) (index : Nat) (child : NodeId) : Operation :=
  match op, index with
  | unary o _, 0 => unary o child
  | binary o _ r, 0 => binary o child r
  | binary o l _, 1 => binary o l child
  | ternary o _ b c, 0 => ternary o child b c
  | ternary o a _ c, 1 => ternary o a child c
  | ternary o a b _, 2 => ternary o a b child
  | swizzle cs _, 0 => swizzle cs child
  | output p _, 0 => output p child
  | call fs args, i => call fs (args.set i child)
  | construct args, i => construct (args.set i child)
  | op, _ => op

end Operation

/-- One node of an expression graph. -/
structure Node where
  /-- What the node does. -/
  op : Operation
  /-- The shape of its value; unknown until it is resolved. -/
  shape : Shape
  /-- Which type of the operator, or which candidate function, was chosen. The
  position is kept in one byte. -/
  overload : Option Nat := none
  /-- The largest width among the operands. -/
  inputWidth : Nat := 0
  /-- Fingerprint of the structure, as of its last refresh. -/
  fingerprint : UInt64 := 0
deriving DecidableEq, Repr

namespace Node

/-- The operands in order. -/
def children (n : Node) : List NodeId := n.op.children

/-- Replace the operand at a position. -/
def setChild (n : Node) (index : Nat) (child : NodeId) : Node :=
  { n with op := n.op.setChild index child }

/-- Short name of the operation, used in messages. -/
def describe (n : Node) : String :=
  match n.op with
  | .unary op _ => op.name
  | .binary op _ _ => op.name
  | .ternary op _ _ _ => op.name
  | .constant _ => "Constant"
  | .swizzle cs _ => "Swizzle ." ++ String.ofList (cs.map Component.letter)
  | .input p => "Input '" ++ p.name ++ "'"
  | .output p _ => "Output '" ++ p.name ++ "'"
  | .call _ _ => "FunctionCall"
  | .construct _ => "Constructor " ++ n.shape.name

/-- The literal of a constant node. -/
def constant? (n : Node) : Option Constant :=
  match n.op with
  | .constant c => some c
  | _ => none

/-- The literal of a one-component constant node. -/
def scalar? (n : Node) : Option Scalar := n.constant?.bind Constant.scalar?

/-- The node writes a stream. -/
def isOutput (n : Node) : Bool :=
  match n.op with
  | .output _ _ => true
  | _ => false

end Node

end LaneGraph
