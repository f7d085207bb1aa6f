import LaneGraph.Graph.Basic
import LaneGraph.Word.Fingerprint

/-!
# Structural identity of nodes

Two nodes are the same if they do the same to the same operands; operands are
compared by position. A fingerprint of the structure narrows the search for an
equal node, and equality decides.
-/

namespace LaneGraph

/-- Mix a byte-sized number. -/
def Fingerprint.number (f : Fingerprint) (n : Nat) : Fingerprint := f.byte (UInt8.ofNat n)

namespace Graph

/-- Mix what an operation does, apart from its operands. -/
def mixOperation (g : Graph) (f : Fingerprint) : Operation → Fingerprint
  | .unary op _ => (f.number 1).text op.name
  | .binary op _ _ => (f.number 2).text op.name
  | .ternary op _ _ _ => (f.number 3).text op.name
  | .constant c => c.bits.foldl Fingerprint.word32 ((f.number 4).number c.kind.level)
  | .swizzle cs _ => cs.foldl (fun f c => f.number c.index) (f.number 5)
  | .input p => ((f.number 6).text p.name).text p.format.name
  | .output p _ => ((f.number 7).text p.name).text p.format.name
  | .call candidates _ =>
    (g.signatures candidates).foldl (fun f s => f.text s.symbol) (f.number 8)
  | .construct _ => f.number 9

/-- Operands of a commutative operator are mixed in order of their
fingerprints. -/
def operandOrder (op : Operation) (prints : List UInt64) : List UInt64 :=
  match op, prints with
  | .binary op _ _, [a, b] => if op.isCommutative && b < a then [b, a] else [a, b]
  | _, prints => prints

/-- The fingerprint of a node from its operation, its shape and the current
fingerprints of its operands. -/
def fingerprintOf (g : Graph) (n : Node) : Except GraphError UInt64 := do
  let start := (Fingerprint.start.number n.shape.kind.level).number n.shape.width
  let own := g.mixOperation start n.op
  let prints ← n.children.mapM fun c => (g.node c).map (·.fingerprint)
  return ((operandOrder n.op prints).foldl Fingerprint.word64 own).state

/-- Two nodes have the same shape and do the same to the same operands. The
operands of a commutative operator may be swapped. -/
def sameNode (a b : Node) : Bool :=
  a.shape = b.shape &&
    match a.op, b.op with
    | .binary op l r, .binary op' l' r' =>
      op = op' && ((l = l' && r = r') || (op.isCommutative && l = r' && r = l'))
    | .call _ _, .call _ _ => a.overload = b.overload && a.op = b.op
    | x, y => x = y

/-- The nodes at two positions are the same. -/
def same (g : Graph) (a b : NodeId) : Except GraphError Bool := do
  if a = b then return true
  return sameNode (← g.node a) (← g.node b)

end Graph

namespace Build

/-- Refresh the fingerprint of a node. -/
def refreshFingerprint (id : NodeId) : Build UInt64 := do
  let n ← node id
  let print ← ask (·.fingerprintOf n)
  modifyNode id fun n => { n with fingerprint := print }
  return print

/-- The first representative with a fingerprint that is the same as a node. -/
def representative? (print : UInt64) (id : NodeId) :
    List (UInt64 × NodeId) → Build (Option NodeId)
  | [] => return none
  | (other, candidate) :: rest => do
    if other = print then
      if ← ask (·.same candidate id) then return some candidate
    representative? print id rest

/-- The representative of a node; a node without one becomes its own. -/
def share (id : NodeId) : Build NodeId := do
  let print ← refreshFingerprint id
  match ← representative? print id (← get).representatives with
  | some existing => return existing
  | none =>
    modify fun g => { g with representatives := g.representatives ++ [(print, id)] }
    return id

/-- Forget all representatives. -/
def forgetRepresentatives : Build Unit := modify fun g => { g with representatives := [] }

end Build

end LaneGraph
