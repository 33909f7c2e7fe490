import Pipework.Graph.Basic

/-!
# The order of the nodes

Nodes are put in an order in which every edge leads forward. For each node the edges that end
at it are counted, and whenever a node gets its place, the edges that start there are counted
off. At each place stands the oldest node that nothing is left to be counted off for. Nodes that
wait for each other, or for such nodes, never get a place, and their names are told.
-/

namespace Pipework.Graph

/-- A node without a place yet. -/
structure Waiting where
  /-- The node. -/
  node : Node
  /-- The number of edges that end at it and start at nodes without a place. -/
  count : Nat

/-- Changes the count if it is that of the node with this handle. -/
def Waiting.adjust (change : Nat → Nat) (id : NodeId) (waiting : Waiting) : Waiting :=
  if waiting.node.id = id then { waiting with count := change waiting.count } else waiting

/-- Changes the count at the target of each edge, once for each edge. -/
def adjustTargets (change : Nat → Nat) (edges : List Edge) (waiting : List Waiting) :
    List Waiting :=
  edges.foldl (fun waiting edge => waiting.map (.adjust change edge.target)) waiting

/-- Takes out a node that has got its place, and counts off the edges that start there. -/
def release (edges : List Edge) (id : NodeId) (waiting : List Waiting) : List Waiting :=
  adjustTargets Nat.pred (edges.filter (·.source == id)) (waiting.filter (·.node.id != id))

/-- Gives places to up to so many nodes, each the first one with nothing left to be counted off,
and tells which nodes have none in the end. -/
def placeReady (edges : List Edge) : Nat → List Waiting → List Node × List Waiting
  | 0, waiting => ([], waiting)
  | places + 1, waiting =>
    match waiting.find? (·.count == 0) with
    | none => ([], waiting)
    | some ready =>
      let (placed, left) := placeReady edges places (release edges ready.node.id waiting)
      (ready.node :: placed, left)

/-- All nodes, each behind its predecessors. -/
def topologicalOrder (graph : Graph) : Except GraphError (List Node) :=
  let waiting := adjustTargets Nat.succ graph.edges (graph.nodes.map fun node => ⟨node, 0⟩)
  match placeReady graph.edges graph.nodes.length waiting with
  | (placed, []) => .ok placed
  | (_, left) => .error (.cycle ((left.map (·.node.name)).mergeSort fun a b => decide (a ≤ b)))

end Pipework.Graph
