import Pipework.Graph.Configure
import Pipework.Graph.Dependency
import Pipework.Graph.Split
import Pipework.Options

/-!
# Preparing a graph

A graph is prepared by repeating nodes, handing on values along the edges, replacing jobs
that have a pipeline of their own by the nodes of that pipeline, and resolving all values.
The pipeline inside a job gets the job's values on top of its own and is prepared as a
graph for itself, with all that lies in it. Pipelines lie in each other only so deep, which
bounds the recursion.
-/

namespace Pipework.Graph

/-- The prepared graph of a pipeline inside a job. -/
def prepareInner (prepare : GraphM Unit) (pipeline : Pipeline) : GraphM Graph :=
  match build pipeline with
  | .error e => throw e
  | .ok graph =>
    match prepare graph with
    | .ok _ graph => return graph
    | .error e _ => throw e

/-- Adds a node of a pipeline inside a job. Its values are resolved already and so become values
of its own. The two handles are given back, the old one first. -/
def adoptNode (owner : String) (node : Node) : GraphM (NodeId × NodeId) := do
  let id ← addNode { node with
    name := owner ++ "_" ++ node.name
    overrides := node.resolved?.getD node.overrides
    resolved? := none }
  return (node.id, id)

/-- An edge between nodes of a pipeline inside a job, as it is between the nodes added for
them. -/
def adoptEdge (handles : List (NodeId × NodeId)) (edge : Edge) : GraphM Edge := do
  let source ← ofOption (handles.lookup edge.source)
  let target ← ofOption (handles.lookup edge.target)
  return { edge with source, target }

/-- The pairs of nodes to be connected so that the nodes added for a job come between its
neighbours: what led to the job leads to those without a predecessor among them, and those
without a successor lead to what the job led to. -/
def neighbourPairs (graph : Graph) (id : NodeId) (inner : List NodeId) (edges : List Edge) :
    List (NodeId × NodeId) :=
  let entries := inner.filter fun node => edges.all (·.target != node)
  let exits := inner.filter fun node => edges.all (·.source != node)
  let before := (graph.edges.filter (·.target == id)).map (·.source)
  let behind := (graph.edges.filter (·.source == id)).map (·.target)
  (before.flatMap fun source => entries.map (source, ·)) ++
    behind.flatMap fun target => exits.map (·, target)

/-- Replaces a node with a pipeline of its own by the nodes of that pipeline. -/
def expandNode (prepare : GraphM Unit) (id : NodeId) : GraphM Unit := do
  let node ← nodeAt id
  match node.spec.nested? with
  | none => return
  | some nested => do
    let settings ← configuration node.name
    let inner ← prepareInner prepare
      { nested with configuration := nested.configuration.overlay settings }
    let handles ← inner.nodes.mapM (adoptNode node.name)
    let edges ← inner.edges.mapM (adoptEdge handles)
    let pairs := neighbourPairs (← get) id (handles.map (·.2)) edges
    modify fun graph => (graph.removeNode id).addEdges
      (edges ++ pairs.eraseDups.map fun pair => .after pair.1 pair.2)

/-- Replaces all nodes with a pipeline of their own. -/
def expand (prepare : GraphM Unit) : GraphM Unit := do
  let nested := (← get).nodes.filter (·.spec.nested?.isSome)
  nested.forM (expandNode prepare ·.id)

/-- Prepares a graph, given how the graphs of inner pipelines are prepared. -/
def prepareStages (options : CompileOptions) (prepare : GraphM Unit) : GraphM Unit := do
  split
  configure
  if options.expandNested then expand prepare
  finalize

/-- Prepares a graph in which pipelines lie in each other at most so deep. Inner graphs are
prepared with all stages. -/
def prepareWithin : Nat → CompileOptions → GraphM Unit
  | 0, options => prepareStages options (throw .dangling)
  | depth + 1, options => prepareStages options (prepareWithin depth {})

/-- How deep pipelines lie in each other within the nodes. -/
def depth (graph : Graph) : Nat := (graph.nodes.map (·.spec.depth)).foldl max 0

/-- Prepares a graph. -/
def prepare (options : CompileOptions) : GraphM Unit := do
  prepareWithin (← get).depth options

end Pipework.Graph
