import Pipework.Graph.Order

/-!
# Summaries of graphs

A summary is what is shown of a graph: the nodes in their order with all their values
resolved, and the edges between names.
-/

namespace Pipework

/-- What is shown of a node. -/
structure NodeSummary where
  /-- The name. -/
  id : String
  /-- The tool to run. -/
  toolId : String
  /-- Whether it is one of the repetitions of a job. -/
  isReplica : Bool
  /-- All values, resolved. -/
  configuration : Settings
  deriving DecidableEq

/-- What is shown of an edge. -/
structure EdgeSummary where
  /-- The name of the node that comes first. -/
  source : String
  /-- The name of the node that has to wait. -/
  target : String
  /-- What the edge is for. -/
  kind : EdgeKind
  deriving DecidableEq

/-- What is shown of a graph. -/
structure Summary where
  /-- The nodes, each behind its predecessors. -/
  nodes : List NodeSummary
  /-- The edges. -/
  edges : List EdgeSummary
  deriving DecidableEq

namespace Graph

/-- What is shown of a node. -/
def summarizeNode (node : Node) : GraphM NodeSummary := do
  return ⟨node.name, node.spec.toolId, node.isReplica, ← resolvedOf node⟩

/-- What is shown of an edge. -/
def summarizeEdge (edge : Edge) : GraphM EdgeSummary := do
  return ⟨(← nodeAt edge.source).name, (← nodeAt edge.target).name, edge.kind⟩

/-- What is shown of the graph. -/
def summarize : GraphM Summary := do
  let order ← ofExcept (← get).topologicalOrder
  let nodes ← order.mapM summarizeNode
  let edges ← (← get).edges.mapM summarizeEdge
  return ⟨nodes, edges⟩

end Graph

end Pipework
