import Pipework.Graph.Order

/-!
# Dropping implied edges

An edge is implied when its target can be reached from its source through another
successor. Implied edges are dropped, and of several edges between the same two nodes only
the first one stays. All edges are judged by what can be reached before any is dropped.
-/

namespace Pipework.Graph

/-- The nodes that edges from a node lead to. -/
def successors (edges : List Edge) (id : NodeId) : List NodeId :=
  (edges.filter (·.source == id)).map (·.target)

/-- For nodes in an order in which edges lead forward, what can be reached from each. -/
def reachTable (edges : List Edge) : List NodeId → List (NodeId × List NodeId)
  | [] => []
  | id :: later =>
    let table := reachTable edges later
    let reach := (successors edges id).flatMap fun next => next :: (table.lookup next).getD []
    (id, reach.eraseDups) :: table

/-- Whether the target can be reached from the source by way of another successor of it. -/
def isImplied (edges : List Edge) (table : List (NodeId × List NodeId)) (edge : Edge) : Bool :=
  (successors edges edge.source).any fun next =>
    next != edge.target && ((table.lookup next).getD []).contains edge.target

/-- The edges that pass a test, of those between the same two nodes only the first, when edges
between `seen` have come before. -/
def keepFirst (test : Edge → Bool) : List (NodeId × NodeId) → List Edge → List Edge
  | _, [] => []
  | seen, edge :: edges =>
    if test edge && !seen.contains (edge.source, edge.target) then
      edge :: keepFirst test ((edge.source, edge.target) :: seen) edges
    else keepFirst test seen edges

/-- The edges that no longer path implies, one between any two nodes. -/
def directEdges (edges : List Edge) (order : List NodeId) : List Edge :=
  let table := reachTable edges order
  keepFirst (fun edge => !isImplied edges table edge) [] edges

/-- Drops the edges that longer paths imply, and tells how many there were. -/
def reduce : GraphM Nat := do
  let graph ← get
  let order ← ofExcept graph.topologicalOrder
  let kept := directEdges graph.edges (order.map (·.id))
  set { graph with edges := kept }
  return graph.edges.length - kept.length

end Pipework.Graph
