import Pipework.Graph.Drivers

/-!
# Repeating nodes

Nodes are visited in their order. One that receives several values for a parameter that
takes a single one is replaced by repetitions of it, one for each value; one that receives
exactly one value just takes it. The repetitions get all edges of the node, save that the
values are shared out among them. If a parameter asks for it they wait for each other, and
each may take over values of the one before. Paths that the node writes to are told apart
by a suffix.
-/

namespace Pipework.Graph

/-- Turns the edge of a share into one that hands on that share. -/
def narrowEdge (share : Share) : GraphM Unit :=
  modify (·.modifyEdge share.edge fun edge =>
    match edge.kind with
    | .data link => { edge with kind := .data (link.single share.index share.value) }
    | .after => edge)

/-- Lets a node take the one value that each parameter brings. -/
def collapse (id : NodeId) (drivers : Drivers) : GraphM Unit := do
  drivers.shares.forM fun entry => entry.2.forM narrowEdge
  drivers.lists.forM fun entry => do
    let item ← ofOption entry.2[0]?
    setNodeValue id entry.1 item

/-- Whether the repetitions of a node wait for each other. Parameters must not disagree. -/
def isSerial (node : Node) : Except GraphError Bool :=
  let modes := node.spec.parameters.map (·.expandMode)
  if modes.contains .parallel && modes.contains .serial then .error (.mixedExpansion node.name)
  else .ok (modes.contains .serial)

/-- What tells the repetition at this place from the others. -/
def replicaSuffix (serial : Bool) (place : Nat) : String :=
  (if serial then "seq_" else "split_") ++ toString place

/-- The values that the repetition at this place gets, laid over those that the node has. -/
def shareOut (node : Node) (drivers : Drivers) (place : Nat) : GraphM Settings := do
  let withLists ← drivers.lists.foldlM (fun settings entry => do
    let item ← ofOption entry.2[place]?
    return settings.insert entry.1 item) node.overrides
  drivers.shares.foldlM (fun settings entry => do
    let share ← ofOption entry.2[place]?
    return settings.insert entry.1 share.value) withLists

/-- Adds the repetition at this place. -/
def addReplica (node : Node) (drivers : Drivers) (serial : Bool) (place : Nat) :
    GraphM NodeId := do
  let overrides ← shareOut node drivers place
  addNode { node with
    name := node.name ++ "_" ++ replicaSuffix serial place
    overrides
    isReplica := true
    resolved? := none }

/-- Gives each repetition a path of its own for one output, unless their paths differ already.
Where the value is no text it stays. -/
def separateOutput (serial : Bool) (replicas : List NodeId) (name : String) : GraphM Unit := do
  let values ← replicas.mapM fun replica => propertyValue replica name
  let texts := values.filterMap fun value? => value?.map Value.render
  if texts.eraseDups.length = replicas.length then return
  else (replicas.zip values).zipIdx.forM fun entry =>
    match entry.1.2 with
    | some (.str path) =>
      setNodeValue entry.1.1 name (.str (PathText.withSuffix path (replicaSuffix serial entry.2)))
    | _ => return

/-- Gives the repetitions paths of their own for all outputs to which one path is written,
except where their values were shared out. -/
def separateOutputs (node : Node) (drivers : Drivers) (serial : Bool)
    (replicas : List NodeId) : GraphM Unit :=
  (node.spec.parameters.filter fun p =>
    p.isOutput && p.isFile && !p.isList && !drivers.properties.contains p.name).forM fun p =>
      separateOutput serial replicas p.name

/-- The edges to a repetition that bring its shares. -/
def shareEdges (drivers : Drivers) (place : Nat) (replica : NodeId) : GraphM (List Edge) :=
  drivers.shares.mapM fun entry => do
    let share ← ofOption entry.2[place]?
    return .data share.source replica
      ⟨.oneToOne, share.sourceProperty, entry.1, share.value, some share.index⟩

/-- The edge of each strand that leads to the repetition at this place. -/
def strandEdges (drivers : Drivers) (place : Nat) (replica : NodeId) : GraphM (List Edge) :=
  drivers.strands.mapM fun strand => do
    let edge ← edgeAt (← ofOption strand.edges[place]?)
    return { edge with target := replica }

/-- The other edges that ended at the node, as they end at a repetition. -/
def keptEdges (drivers : Drivers) (incoming : List Nat) (replica : NodeId) :
    GraphM (List Edge) :=
  (incoming.filter fun place => !drivers.consumes place).mapM fun place => do
    return { ← edgeAt place with target := replica }

/-- The edges that started at the node, as they start at a repetition and hand on its values. -/
def outgoingEdges (outgoing : List Nat) (replica : NodeId) : GraphM (List Edge) :=
  outgoing.mapM fun place => do
    let edge ← edgeAt place
    match edge.kind with
    | .after => return { edge with source := replica }
    | .data link => do
      let current ← propertyValue replica link.sourceProperty
      return .data replica edge.target { link with value := current.getD link.value }

/-- The parameter of the repetition before that is meant, written as a name or a reference. -/
def carriedProperty (text : String) : String :=
  ((Template.singleReference? text).bind (·.getLast?)).getD text

/-- The edges by which a repetition takes over values of the one before. -/
def carryEdges (previous current : NodeId) : List Parameter → GraphM (List Edge)
  | [] => return []
  | parameter :: parameters => do
    match parameter.expandValue? with
    | none => carryEdges previous current parameters
    | some text => do
      let property := carriedProperty text
      let value? ← propertyValue previous property
      let others ← carryEdges previous current parameters
      match value? with
      | some value =>
        return .data previous current ⟨.oneToOne, property, parameter.name, value, none⟩ :: others
      | none => return others

/-- The edges by which a repetition waits for the one before, if it has to. -/
def chainEdges (node : Node) (serial : Bool) (previous? : Option NodeId) (current : NodeId) :
    GraphM (List Edge) :=
  match serial, previous? with
  | true, some previous => do
    return .after previous current :: (← carryEdges previous current node.spec.parameters)
  | _, _ => return []

/-- All edges of repetitions, the first of which stands at `place` behind `previous?`. -/
def replicaEdges (node : Node) (drivers : Drivers) (serial : Bool)
    (incoming outgoing : List Nat) :
    Nat → Option NodeId → List NodeId → GraphM (List Edge)
  | _, _, [] => return []
  | place, previous?, replica :: replicas => do
    let shares ← shareEdges drivers place replica
    let strands ← strandEdges drivers place replica
    let kept ← keptEdges drivers incoming replica
    let outward ← outgoingEdges outgoing replica
    let chain ← chainEdges node serial previous? replica
    let others ←
      replicaEdges node drivers serial incoming outgoing (place + 1) (some replica) replicas
    return shares ++ strands ++ kept ++ outward ++ chain ++ others

/-- Replaces a node by so many repetitions of it. -/
def replicate (node : Node) (drivers : Drivers) (count : Nat) : GraphM Unit := do
  let serial ← ofExcept (isSerial node)
  let replicas ← (List.range count).mapM (addReplica node drivers serial)
  separateOutputs node drivers serial replicas
  let graph ← get
  let edges ← replicaEdges node drivers serial (graph.incoming node.id)
    (graph.outgoing node.id) 0 none replicas
  modify fun g => (g.removeNode node.id).addEdges edges

/-- Repeats a node if it has to be repeated. -/
def splitNode (id : NodeId) : GraphM Unit := do
  match (← get).node? id with
  | none => return
  | some node => do
    let drivers ← drivers id
    match ← ofExcept (drivers.size? node.name) with
    | none => return
    | some 1 => collapse id drivers
    | some count => replicate node drivers count

/-- Repeats all nodes that have to be repeated. -/
def split : GraphM Unit := do
  let order ← ofExcept (← get).topologicalOrder
  order.forM (splitNode ·.id)

end Pipework.Graph
