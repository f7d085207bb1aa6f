import LaneGraph.Graph.Build
import LaneGraph.Graph.Walk

/-!
# Sweeps over a graph

A pass says what replaces one node. A sweep applies it to everything the outputs
depend on and redirects operands to the replacements. Sweeping upward, operands
are replaced before their users. Sweeping downward, a node is replaced until it
stays, and then its operands are taken up, so that what a replacement brings in
is replaced as well.
-/

namespace LaneGraph

/-- The direction of a sweep. -/
inductive Direction where
  /-- Users before operands. -/
  | downward
  /-- Operands before users. -/
  | upward
deriving DecidableEq, Repr

/-- A replacement rule for single nodes. -/
structure Pass where
  /-- Name in reports. -/
  name : String
  /-- How it sweeps over a graph. -/
  direction : Direction
  /-- What replaces a node; the node itself if it stays. -/
  replace : NodeId → Build NodeId

/-- Replacements found so far, latest first. -/
abbrev Replacements := List (NodeId × NodeId)

namespace Replacements

/-- What replaces a node; the node itself if nothing does. -/
def apply (r : Replacements) (id : NodeId) : NodeId := (r.lookup id).getD id

end Replacements

namespace Operation

/-- Apply a function to every operand. -/
def mapChildren (f : NodeId → NodeId) : Operation → Operation
  | unary op x => unary op (f x)
  | binary op l r => binary op (f l) (f r)
  | ternary op a b c => ternary op (f a) (f b) (f c)
  | constant c => constant c
  | input p => input p
  | swizzle cs x => swizzle cs (f x)
  | output p x => output p (f x)
  | call fs args => call fs (args.map f)
  | construct args => construct (args.map f)

end Operation

namespace Build

/-- The name of an output in messages. -/
def outputName (id : NodeId) : Build String := do
  match (← node id).op with
  | .output p _ => return p.name
  | _ => return nodeText id

/-- An output may only be replaced by an output. -/
def checkOutput (old new : NodeId) : Build Unit := do
  unless (← node new).isOutput do
    throw (.invalidOutputTransform (← outputName old))

/-- Replace one node of an upward sweep whose operands are replaced. -/
def replaceUpward (replace : NodeId → Build NodeId) (r : Replacements) (id : NodeId) :
    Build Replacements := do
  modifyNode id fun n => { n with op := n.op.mapChildren r.apply }
  return (id, ← replace id) :: r

/-- Sweep upward. -/
def sweepUpward (replace : NodeId → Build NodeId) : Build Unit := do
  let order ← ask (·.postOrder)
  let r ← order.toList.foldlM (replaceUpward replace) []
  let outputs ← (← get).outputs.mapM fun output => do
    checkOutput output (r.apply output)
    return r.apply output
  modify fun g => { g with outputs }

/-- Replace a node until it stays. -/
def settle (replace : NodeId → Build NodeId) : Nat → NodeId → Build NodeId
  | 0, _ => throw .unsettled
  | steps + 1, id => do
    let next ← replace id
    if next = id then return id else settle replace steps next

/-- What a downward sweep has done so far. -/
structure Descent where
  /-- Where nodes settled. -/
  settled : Replacements := []
  /-- Nodes whose operands were taken up. -/
  entered : List NodeId := []

/-- Where a node settles, found once per sweep. -/
def settleOnce (replace : NodeId → Build NodeId) (bound : Nat) (d : Descent) (id : NodeId) :
    Build (NodeId × Descent) := do
  match d.settled.lookup id with
  | some done => return (done, d)
  | none =>
    let done ← settle replace bound id
    return (done, { d with settled := (done, done) :: (id, done) :: d.settled })

/-- Settle operands in order and redirect their user to them. -/
def settleChildren (replace : NodeId → Build NodeId) (bound : Nat) (parent : NodeId) :
    Descent → List (NodeId × Nat) → Build (List NodeId × Descent)
  | d, [] => return ([], d)
  | d, (child, index) :: rest => do
    let (done, d) ← settleOnce replace bound d child
    if done ≠ child then setChild parent index done
    let (others, d) ← settleChildren replace bound parent d rest
    return (done :: others, d)

/-- Settle the operands of a node, then take up each of them, the last first. -/
def descend (replace : NodeId → Build NodeId) (bound : Nat) :
    Nat → Descent → NodeId → Build Descent
  | 0, _, _ => throw .unsettled
  | depth + 1, d, parent => do
    if parent ∈ d.entered then return d
    let n ← node parent
    let (children, d) ← settleChildren replace bound parent
      { d with entered := parent :: d.entered } n.children.zipIdx
    children.reverse.foldlM (descend replace bound depth) d

/-- Settle one output and everything below it. -/
def sweepOutput (replace : NodeId → Build NodeId) (bound : Nat) (d : Descent)
    (output : NodeId) : Build (NodeId × Descent) := do
  let (done, d) ← settleOnce replace bound d output
  checkOutput output done
  return (done, ← descend replace bound bound d done)

/-- Settle outputs in order. -/
def sweepOutputs (replace : NodeId → Build NodeId) (bound : Nat) :
    Descent → List NodeId → Build (List NodeId)
  | _, [] => return []
  | d, output :: rest => do
    let (done, d) ← sweepOutput replace bound d output
    return done :: (← sweepOutputs replace bound d rest)

/-- A depth that a downward sweep over an acyclic graph does not use up. One
node is replaced by an expression less than sixteen levels deep. -/
def sweepBound (g : Graph) : Nat := 16 * (g.nodes.size + 1)

/-- Sweep downward. -/
def sweepDownward (replace : NodeId → Build NodeId) : Build Unit := do
  let g ← get
  let outputs ← sweepOutputs replace (sweepBound g) {} g.outputs
  modify fun g => { g with outputs }

end Build

namespace Pass

/-- Apply a pass to everything the outputs depend on. -/
def run (pass : Pass) : Build Unit := do
  let g ← get
  if g.outputs.isEmpty then throw .noOutputs
  g.outputs.forM fun output => do
    let _ ← Build.ask (·.checkedNode output)
  match pass.direction with
  | .upward => Build.sweepUpward pass.replace
  | .downward => Build.sweepDownward pass.replace

end Pass

end LaneGraph
