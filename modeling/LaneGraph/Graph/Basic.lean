import LaneGraph.Graph.Error

/-!
# Expression graphs

A graph is an arena of nodes with tables of the streams and functions they
mention. Nodes are only ever added; a pass makes new nodes and redirects
operands to them. Everything that adds or changes nodes runs in `Build`, which
keeps the graph as it was left when a step fails.
-/

namespace LaneGraph

/-- An arena of nodes with its tables. -/
structure Graph where
  /-- The nodes; a node's position is its identity. -/
  nodes : Array Node := #[]
  /-- The output nodes that are to be computed, in order. -/
  outputs : List NodeId := []
  /-- The input streams in order of first use, one per name. -/
  inputs : List Channel := []
  /-- The signatures mentioned by calls, each once, in order of first use. -/
  functions : List Signature := []
  /-- The representative nodes of sharing with their fingerprints, oldest
  first. -/
  representatives : List (UInt64 × NodeId) := []
deriving DecidableEq, Repr, Inhabited

namespace Graph

/-- The graph without nodes. -/
def empty : Graph := {}

/-- The node at a position. -/
def node? (g : Graph) (id : NodeId) : Option Node := g.nodes[id]?

/-- The node at a position that is taken to be valid. -/
def node (g : Graph) (id : NodeId) : Except GraphError Node :=
  match g.node? id with
  | some n => .ok n
  | none => .error (.missingNode id)

/-- The node at a position that has to be checked. -/
def checkedNode (g : Graph) (id : NodeId) : Except GraphError Node :=
  match g.node? id with
  | some n => .ok n
  | none => .error (.invalidNode id)

/-- The signatures of candidate functions. -/
def signatures (g : Graph) (ids : List FunctionId) : List Signature :=
  ids.filterMap (g.functions[·]?)

/-- The signature of the candidate that a call node has chosen. -/
def chosen? (g : Graph) (n : Node) : Option Signature :=
  match n.op, n.overload with
  | .call candidates _, some k => (candidates[k]?).bind (g.functions[·]?)
  | _, _ => none

/-- Replace a node. -/
def setNode (g : Graph) (id : NodeId) (n : Node) : Graph :=
  { g with nodes := g.nodes.setIfInBounds id n }

end Graph

/-- Steps that add or change nodes of a graph and may fail. -/
abbrev Build := ExceptT GraphError (StateM Graph)

namespace Build

/-- Run steps on a graph; the graph is returned also when a step fails. -/
def runOn {α : Type} (steps : Build α) (g : Graph) : Except GraphError α × Graph :=
  (ExceptT.run steps).run g

/-- Ask the graph a question that may fail. -/
def ask {α : Type} (question : Graph → Except GraphError α) : Build α := do
  match question (← get) with
  | .ok a => return a
  | .error e => throw e

/-- The node at a position that is taken to be valid. -/
def node (id : NodeId) : Build Node := ask (·.node id)

/-- Change the node at a position that is taken to be valid. -/
def modifyNode (id : NodeId) (f : Node → Node) : Build Unit := do
  let n ← node id
  modify (·.setNode id (f n))

/-- Replace an operand of a node. -/
def setChild (id : NodeId) (index : Nat) (child : NodeId) : Build Unit :=
  modifyNode id (·.setChild index child)

/-- The shape of a node. -/
def shape (id : NodeId) : Build Shape := return (← node id).shape

/-- Add a node as it is. -/
def append (n : Node) : Build NodeId := do
  let g ← get
  set { g with nodes := g.nodes.push n }
  return g.nodes.size

end Build

end LaneGraph
