import LaneGraph.Graph.Basic

/-!
# Depth-first walks

A walk visits nodes by their successors, each node once, and lists a node after
everything found through it. The recursion is bounded by a depth: every level
marks one more node of the arena as seen, so a depth above the number of nodes
is never used up.
-/

namespace LaneGraph

/-- What a walk has seen and finished so far. -/
structure Walk where
  /-- Nodes that were entered. -/
  seen : List NodeId := []
  /-- Nodes that were left, in order. -/
  order : Array NodeId := #[]
deriving Repr

namespace Walk

/-- Enter a node unless it was seen: visit its successors in order, then list
it. -/
def visit {ε : Type} (successors : NodeId → Except ε (List NodeId)) :
    Nat → Walk → NodeId → Except ε Walk
  | 0, w, _ => .ok w
  | depth + 1, w, id =>
    if id ∈ w.seen then .ok w
    else
      match successors id with
      | .error e => .error e
      | .ok next =>
        match next.foldlM (visit successors depth) { w with seen := id :: w.seen } with
        | .error e => .error e
        | .ok w => .ok { w with order := w.order.push id }

end Walk

namespace Graph

/-- A depth that no walk over the nodes of the graph uses up. -/
def walkDepth (g : Graph) : Nat := g.nodes.size + 1

/-- Walk from the outputs along given successors. -/
def walk {ε : Type} (g : Graph) (successors : NodeId → Except ε (List NodeId)) :
    Except ε (Array NodeId) :=
  match g.outputs.foldlM (Walk.visit successors g.walkDepth) {} with
  | .error e => .error e
  | .ok w => .ok w.order

/-- Every node that the outputs depend on, once, operands before users. -/
def postOrder (g : Graph) : Except GraphError (Array NodeId) :=
  g.walk fun id => (g.node id).map Node.children

/-- How many nodes the outputs depend on, the outputs included. -/
def reachableCount (g : Graph) : Except GraphError Nat := g.postOrder.map Array.size

end Graph

end LaneGraph
