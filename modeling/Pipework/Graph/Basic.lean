import Pipework.Graph.Edge
import Pipework.Graph.Error
import Pipework.Scope.Tree

/-!
# Graphs of jobs

A graph holds nodes, the edges between them, and a scope tree in which every reference is
resolved: the root has the values of the pipeline, and inside it each node has a scope of
its name with its present values. Nodes and scopes are changed together. The scope of a
node that is taken out stays, so that what refers to its values goes on doing so. All
changes are steps that may fail and leave the graph as far as they came.
-/

namespace Pipework

/-- A graph of jobs. -/
structure Graph where
  /-- The pipeline it was made from. -/
  pipeline : Pipeline
  /-- The nodes, oldest first, so that their handles rise. -/
  nodes : List Node
  /-- The edges, in the order in which they count. -/
  edges : List Edge
  /-- Where references are resolved. -/
  scope : ScopeTree
  /-- The handle of the next node. -/
  nextId : NodeId

/-- A step on a graph that may fail. What was done before the failure stays done. -/
abbrev GraphM := EStateM GraphError Graph

namespace Graph

/-- The graph of a pipeline before anything is put into it. -/
def initial (pipeline : Pipeline) : Graph := ⟨pipeline, [], [], .initial, 0⟩

/-- The node with this handle. -/
def node? (graph : Graph) (id : NodeId) : Option Node := graph.nodes.find? (·.id == id)

/-- The node of this name. -/
def find? (graph : Graph) (name : String) : Option Node := graph.nodes.find? (·.name == name)

/-- The places of the edges that pass a test, in order. -/
def placesWhere (graph : Graph) (test : Edge → Bool) : List Nat :=
  graph.edges.zipIdx.filterMap fun entry => if test entry.1 then some entry.2 else none

/-- The places of the edges that end at a node. -/
def incoming (graph : Graph) (id : NodeId) : List Nat := graph.placesWhere (·.target == id)

/-- The places of the edges that start at a node. -/
def outgoing (graph : Graph) (id : NodeId) : List Nat := graph.placesWhere (·.source == id)

/-- How many edges end at the node of this name. -/
def inDegree (graph : Graph) (name : String) : Nat :=
  ((graph.find? name).map fun node => (graph.incoming node.id).length).getD 0

/-- How many edges start at the node of this name. -/
def outDegree (graph : Graph) (name : String) : Nat :=
  ((graph.find? name).map fun node => (graph.outgoing node.id).length).getD 0

/-- The edges from one node to another, both by name. -/
def edgesBetween (graph : Graph) (source target : String) : List Edge :=
  match graph.find? source, graph.find? target with
  | some s, some t => graph.edges.filter fun edge => edge.source == s.id && edge.target == t.id
  | _, _ => []

/-- Changes the node with this handle. -/
def modifyNode (graph : Graph) (id : NodeId) (change : Node → Node) : Graph :=
  { graph with nodes := graph.nodes.map fun node => if node.id = id then change node else node }

/-- Changes the edge at this place. -/
def modifyEdge (graph : Graph) (place : Nat) (change : Edge → Edge) : Graph :=
  { graph with edges := graph.edges.modify place change }

/-- Takes out a node with all edges that touch it. Its scope stays. -/
def removeNode (graph : Graph) (id : NodeId) : Graph :=
  { graph with
    nodes := graph.nodes.filter (·.id ≠ id)
    edges := graph.edges.filter (!·.touches id) }

/-- Adds edges behind the others. -/
def addEdges (graph : Graph) (edges : List Edge) : Graph :=
  { graph with edges := graph.edges ++ edges }

/-- Runs a step on the scope tree of the graph. -/
def onScope {α : Type} (action : ScopeM α) : GraphM α := fun graph =>
  match action graph.scope with
  | .ok a scope => .ok a { graph with scope }
  | .error e scope => .error (.scope e) { graph with scope }

/-- A result that does not touch the graph. -/
def ofExcept {α : Type} : Except GraphError α → GraphM α
  | .ok a => pure a
  | .error e => throw e

/-- What is found at a place where something has to be. -/
def ofOption {α : Type} : Option α → GraphM α
  | some a => pure a
  | none => throw .dangling

/-- The node with this handle, which has to be there. -/
def nodeAt (id : NodeId) : GraphM Node := do ofOption ((← get).node? id)

/-- The edge at this place, which has to be there. -/
def edgeAt (place : Nat) : GraphM Edge := do ofOption (← get).edges[place]?

/-- Adds a node, whatever handle it comes with, and a scope of its name with its values. -/
def addNode (node : Node) : GraphM NodeId := do
  let scope ← onScope (ScopeTree.createChild Forest.root node.name)
  node.raw.entries.forM fun entry => do
    let _ ← onScope (ScopeTree.put scope entry.1 entry.2)
  let id := (← get).nextId
  modify fun graph => { graph with nodes := graph.nodes ++ [{ node with id }], nextId := id + 1 }
  return id

/-- The scope of a node. -/
def scopeOf? (graph : Graph) (id : NodeId) : Option ScopeId :=
  (graph.node? id).bind fun node => graph.scope.forest.child? Forest.root node.name

/-- Gives a node a value of its own, and its scope too. -/
def setNodeValue (id : NodeId) (key : String) (value : Value) : GraphM Unit := do
  modify (·.modifyNode id (·.set key value))
  match (← get).scopeOf? id with
  | some scope => do
    let _ ← onScope (ScopeTree.put scope key value)
  | none => return

/-- What the value of a key inside a scope of the root stands for, if it has one. -/
def readProperty (owner key : String) : ScopeM (Option Value) := do
  let forest := (← get).forest
  match (forest.child? Forest.root owner).bind (forest.child? · key) with
  | some leaf =>
    if (forest.raw? leaf).isSome then return some (← ScopeTree.resolveAt leaf) else return none
  | none => return none

/-- What the value of a key of a node stands for, if the node has one. -/
def propertyValue (id : NodeId) (key : String) : GraphM (Option Value) := do
  match (← get).node? id with
  | some node => onScope (readProperty node.name key)
  | none => return none

/-- What the values of keys of a node stand for, laid over settings. -/
def resolveKeys (node : Node) (resolved : Settings) : List String → GraphM Settings
  | [] => return resolved
  | key :: keys => do
    match ← onScope (readProperty node.name key) with
    | some value => resolveKeys node (resolved.insert key value) keys
    | none => resolveKeys node resolved keys

/-- What all values of a node stand for. -/
def resolveNode (node : Node) : GraphM Settings := resolveKeys node ∅ node.keys

/-- All values of a node resolved, as it keeps them or else as they are now. -/
def resolvedOf (node : Node) : GraphM Settings :=
  match node.resolved? with
  | some resolved => return resolved
  | none => resolveNode node

/-- All values of the node of this name resolved. -/
def configuration (name : String) : GraphM Settings := do
  match (← get).find? name with
  | some node => resolvedOf node
  | none => throw (.scope (.unresolvedReference name))

/-- Resolves the values of one node, which keeps the result. -/
def finalizeNode (node : Node) : GraphM Unit := do
  let resolved ← resolveNode node
  modify (·.modifyNode node.id fun n => { n with resolved? := some resolved })

/-- Resolves the values of all nodes, which keep the results. -/
def finalize : GraphM Unit := do (← get).nodes.forM finalizeNode

end Graph

end Pipework
