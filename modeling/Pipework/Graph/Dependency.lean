import Pipework.Graph.Order

/-!
# Building a graph

A definition that passes the structure check becomes a graph with a node for each job. The
edges are those that the definition asks for, and then for each parameter one from every
output that is referred to in its value. The values of the outputs are resolved at once,
so a reference that leads nowhere keeps the graph from being built.
-/

namespace Pipework.Graph

/-- An output that a reference leads to. -/
structure OutputOwner where
  /-- The node that has it. -/
  node : Node
  /-- The output. -/
  parameter : Parameter
  /-- The scope with its value. -/
  scope : ScopeId

/-- The output that a scope belongs to, if it lies in the scope of a node and there in that of
an output. -/
def outputOwner? (graph : Graph) (leaf : ScopeId) : Option OutputOwner :=
  let forest := graph.scope.forest
  match forest.pathOf leaf with
  | owner :: key :: _ => do
    let node ← graph.find? owner
    let parameter ← node.parameter? key
    let scope ← (forest.child? Forest.root owner).bind (forest.child? · key)
    if parameter.isOutput then some ⟨node, parameter, scope⟩ else none
  | _ => none

/-- The edges into a parameter from the outputs that references in its value lead to. An output
counts once, and one of the same node not at all. -/
def linksInto (target : NodeId) (start : ScopeId) (parameter : Parameter) :
    List (NodeId × String) → List (List String) → GraphM (List Edge)
  | _, [] => return []
  | seen, path :: paths => do
    let graph ← get
    match (graph.scope.forest.lookup? start path).bind (graph.outputOwner? ·.1) with
    | none => linksInto target start parameter seen paths
    | some owner =>
      let output := (owner.node.id, owner.parameter.name)
      if owner.node.id = target ∨ output ∈ seen then linksInto target start parameter seen paths
      else do
        let value ← onScope (ScopeTree.resolveAt owner.scope)
        let others ← linksInto target start parameter (output :: seen) paths
        return .data owner.node.id target
          ⟨.between owner.parameter.isList parameter.isList, owner.parameter.name,
            parameter.name, value, none⟩ :: others

/-- The edges into a node from the outputs that its parameters refer to. -/
def linksOf (node : Node) (start : ScopeId) : List Parameter → GraphM (List Edge)
  | [] => return []
  | parameter :: parameters => do
    let found ←
      match (← get).scope.forest.child? start parameter.name, node.configured? parameter.name with
      | some _, some raw => linksInto node.id start parameter [] raw.references
      | _, _ => pure []
    let others ← linksOf node start parameters
    return found ++ others

/-- Adds the edges into a node from the outputs that its parameters refer to. -/
def findDependencies (id : NodeId) : GraphM Unit := do
  let node ← nodeAt id
  match (← get).scopeOf? id with
  | none => return
  | some start => do
    let links ← linksOf node start node.spec.parameters
    modify (·.addEdges links)

/-- Puts the values that all jobs may refer to into the root scope: what is configured, and the
defaults of parameters that are not. -/
def addGlobals (pipeline : Pipeline) : GraphM Unit := do
  pipeline.configuration.entries.forM fun entry => do
    let _ ← onScope (ScopeTree.put Forest.root entry.1 entry.2)
  pipeline.parameters.forM fun parameter =>
    match pipeline.configuration.get? parameter.name, parameter.default? with
    | none, some value => do
      let _ ← onScope (ScopeTree.put Forest.root parameter.name value)
    | _, _ => return

/-- The edges that the definition of a job asks for. -/
def afterEdges (job : Job) (target : NodeId) : GraphM Unit :=
  job.after.forM fun after => do
    match (← get).find? after with
    | some source => modify (·.addEdges [.after source.id target])
    | none => throw (.unknownJob job.id after)

/-- Puts everything into the graph of a pipeline. -/
def construct (pipeline : Pipeline) : GraphM Unit := do
  addGlobals pipeline
  let ids ← pipeline.jobs.mapM fun job => addNode (Node.ofJob 0 job)
  (pipeline.jobs.zip ids).forM fun entry => afterEdges entry.1 entry.2
  ids.forM findDependencies

/-- The graph of a pipeline. -/
def build (pipeline : Pipeline) : Except GraphError Graph :=
  match Structure.findings pipeline with
  | [] =>
    match construct pipeline (initial pipeline) with
    | .ok _ graph => .ok graph
    | .error e _ => .error e
  | findings => .error (.invalidPipeline findings)

end Pipework.Graph
