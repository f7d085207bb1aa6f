import LaneGraph.Operator.Meaning
import LaneGraph.Pass.Sweep

/-!
# Constant folding

Operators on literals are replaced by their values. With one literal operand an
operator is simplified where an identity applies, and otherwise arranged so that
the literal stands on the right, where an instruction can hold it.
-/

namespace LaneGraph.Folding

/-- The literal of a one-component constant. -/
def scalarAt? (id : NodeId) : Build (Option Scalar) := return (← Build.node id).scalar?

/-- A literal in place of a node, if there is one. -/
def literalOr (id : NodeId) : Option Scalar → Build NodeId
  | some v => Build.scalar v
  | none => return id

/-- An integer quotient by `2 ^ shift`. The bias rounds negative dividends
toward zero. -/
def divideByPowerOfTwo (x : NodeId) (shift : Nat) : Build NodeId := do
  let k := Int32.ofNat shift
  let signShift ← Build.int 31
  let sign ← Build.binary .shiftRight x signShift
  let mask ← Build.int ((1 <<< k) - 1)
  let bias ← Build.binary .bitwiseAnd sign mask
  let biased ← Build.binary .add x bias
  let count ← Build.int k
  Build.binary .shiftRight biased count

/-- The exponent of a power of two above one. -/
def powerOfTwo? (c : Int32) : Option Nat :=
  let n := c.toInt.toNat
  if 1 < n ∧ 2 ^ n.log2 = n then some n.log2 else none

/-- Simplify `id`, which applies `op` to `left` and the literal node `right`. -/
def foldRight (id : NodeId) (op : BinaryOp) (left right : NodeId) (c : Scalar) :
    Build NodeId :=
  match c, op with
  | .bool b, .logicalAnd => return if b then id else right
  | .bool b, .logicalOr => return if b then right else id
  | .bool _, _ => return id
  | .int n, .add | .int n, .subtract => return if n = 0 then left else id
  | .int n, .shiftLeft | .int n, .shiftRight => return if n = 0 then left else id
  | .int n, .multiply => return if n = 0 then right else if n = 1 then left else id
  | .int n, .pow => return if n = 1 then left else id
  | .int n, .divide =>
    if n = 1 then return left
    else match powerOfTwo? n with
      | some shift => divideByPowerOfTwo left shift
      | none => return id
  | .int _, _ => return id
  | .float x, .add | .float x, .subtract => return if x.eq 0 then left else id
  | .float x, .multiply => return if x.eq 0 then right else if x.eq 1 then left else id
  | .float x, .pow => return if x.eq 1 then left else id
  | .float x, .divide => do
    if x.eq 1 then return left
    let reciprocal ← Build.float (Single.div 1 x)
    Build.binary .multiply left reciprocal
  | .float _, _ => return id

/-- What becomes of an operator whose left operand alone is a literal. -/
inductive LeftFold where
  /-- The node stays. -/
  | keep
  /-- The literal is the value. -/
  | literal
  /-- The other operand is the value. -/
  | other
  /-- The operands change places under this operator. -/
  | swap (op : BinaryOp)
deriving DecidableEq, Repr

/-- Decide on an operator whose left operand is a literal. -/
def leftFold : Scalar → BinaryOp → LeftFold
  | .bool false, .logicalAnd => .literal
  | .bool true, .logicalOr => .literal
  | .bool _, op =>
    match op with
    | .equal | .notEqual | .logicalAnd | .logicalOr => .swap op
    | _ => .keep
  | c, op =>
    match op with
    | .add => if c.isZero then .other else .swap op
    | .multiply => if c.isZero then .literal else if c.isOne then .other else .swap op
    | .min | .max | .bitwiseAnd | .bitwiseXor | .bitwiseOr | .equal | .notEqual => .swap op
    | _ =>
      match op.turned? with
      | some turned => .swap turned
      | none => .keep

/-- Simplify `id`, which applies `op` to the literal node `left` and `right`. -/
def foldLeft (id : NodeId) (op : BinaryOp) (c : Scalar) (left right : NodeId) :
    Build NodeId := do
  match leftFold c op with
  | .keep => return id
  | .literal => return left
  | .other => return right
  | .swap swapped =>
    let turned ← Build.binary swapped right left
    foldRight turned swapped right left c

/-- Fold one node whose operands are folded. -/
def replace (id : NodeId) : Build NodeId := do
  let n ← Build.node id
  match n.op with
  | .unary op operand =>
    let v ← scalarAt? operand
    literalOr id (v.bind (op.eval? n.shape.kind))
  | .binary op left right =>
    match ← scalarAt? left, ← scalarAt? right with
    | some a, some b => literalOr id (op.eval? a b)
    | some a, none => foldLeft id op a left right
    | none, some b => foldRight id op left right b
    | none, none => return id
  | .ternary op first second third =>
    let a ← scalarAt? first
    let b ← scalarAt? second
    let c ← scalarAt? third
    if op = .select then
      match a with
      | some (.bool true) => return second
      | some (.bool false) => return third
      | _ => return id
    else
      match a, b, c with
      | some a, some b, some c => literalOr id (op.eval? a b c)
      | _, _, _ => return id
  | _ => return id

/-- The pass that folds constants. -/
def pass : Pass := ⟨"FoldConstants", .upward, replace⟩

end LaneGraph.Folding
