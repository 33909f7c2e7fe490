import Pipework.Graph.Order

/-!
# What a node is repeated for

A node has to be repeated when several values meet a parameter that takes a single one.
There are three ways in which that comes about: a list comes in along an edge, the
parameter has a list as its value and no edge leads to it, or the node that a value comes
from was repeated itself. All of them have to bring the same number of values.
-/

namespace Pipework.Graph

/-- One element of a list that comes in along an edge. -/
structure Share where
  /-- The place of the edge. -/
  edge : Nat
  /-- The node that the list comes from. -/
  source : NodeId
  /-- The output that the list comes from. -/
  sourceProperty : String
  /-- The place of the element in that list. -/
  index : Nat
  /-- The element. -/
  value : Value
  deriving DecidableEq, Repr

/-- The edges into a parameter from one output of a job, of which there are several when that
job was repeated. -/
structure Strand where
  /-- The parameter. -/
  property : String
  /-- The job. -/
  origin : String
  /-- The output. -/
  sourceProperty : String
  /-- The places of the edges, in order. -/
  edges : List Nat
  deriving DecidableEq, Repr

/-- What a node is repeated for. -/
structure Drivers where
  /-- For each parameter, the elements of the lists that come in along edges. -/
  shares : List (String × List Share) := []
  /-- For each parameter without an edge, the elements of the list it has. -/
  lists : List (String × List Value) := []
  /-- For each output of a repeated job, the edges from its repetitions. -/
  strands : List Strand := []
  deriving DecidableEq, Repr

namespace Drivers

/-- Adds elements behind those that a parameter has already. -/
def addShares (property : String) (added : List Share) :
    List (String × List Share) → List (String × List Share)
  | [] => [(property, added)]
  | entry :: entries =>
    if entry.1 = property then (property, entry.2 ++ added) :: entries
    else entry :: addShares property added entries

/-- Adds an edge behind those from the same output into the same parameter. -/
def addStrand (property origin sourceProperty : String) (place : Nat) :
    List Strand → List Strand
  | [] => [⟨property, origin, sourceProperty, [place]⟩]
  | strand :: strands =>
    if strand.property = property ∧ strand.origin = origin ∧
        strand.sourceProperty = sourceProperty then
      { strand with edges := strand.edges ++ [place] } :: strands
    else strand :: addStrand property origin sourceProperty place strands

/-- How many values each parameter brings. -/
def sizes (drivers : Drivers) : List (String × Nat) :=
  drivers.shares.map (fun entry => (entry.1, entry.2.length)) ++
    drivers.lists.map (fun entry => (entry.1, entry.2.length)) ++
    drivers.strands.map fun strand => (strand.property, strand.edges.length)

/-- The number of values that all parameters bring, if any brings values. -/
def size? (drivers : Drivers) (job : String) : Except GraphError (Option Nat) :=
  match drivers.sizes with
  | [] => .ok none
  | (_, expected) :: others =>
    match others.find? (·.2 != expected) with
    | some (parameter, found) => .error (.cardinalityMismatch job parameter expected found)
    | none => .ok (some expected)

/-- The parameters that bring values. -/
def properties (drivers : Drivers) : List String := drivers.sizes.map (·.1)

/-- Whether the edge at this place brings values to be shared out. -/
def consumes (drivers : Drivers) (place : Nat) : Bool :=
  drivers.shares.any (·.2.any (·.edge == place)) || drivers.strands.any (·.edges.contains place)

end Drivers

/-- Takes account of the edge at this place. An edge with an empty list brings nothing and from
now on stands for the order only. -/
def addDriver (drivers : Drivers) (place : Nat) : GraphM Drivers := do
  let edge ← edgeAt place
  match edge.kind with
  | .after => return drivers
  | .data link =>
    match link.cardinality with
    | .manyToOne => do
      let current ← propertyValue edge.source link.sourceProperty
      match (current.getD link.value).toList with
      | [] => do
        modify (·.modifyEdge place ({ · with kind := .after }))
        return drivers
      | items => do
        let shares := items.zipIdx.map fun item =>
          (⟨place, edge.source, link.sourceProperty, item.2, item.1⟩ : Share)
        return { drivers with
          shares := Drivers.addShares link.targetProperty shares drivers.shares }
    | .oneToOne => do
      let source ← nodeAt edge.source
      return { drivers with
        strands := Drivers.addStrand link.targetProperty source.spec.id link.sourceProperty place
          drivers.strands }
    | .oneToMany | .manyToMany => return drivers

/-- The parameters that take a single value, have a list with elements, and are not among those
that edges lead to. -/
def listDrivers (id : NodeId) (linked : List String) :
    List Parameter → GraphM (List (String × List Value))
  | [] => return []
  | parameter :: parameters => do
    if parameter.isList || linked.contains parameter.name then
      listDrivers id linked parameters
    else do
      let current ← propertyValue id parameter.name
      let others ← listDrivers id linked parameters
      match current with
      | some (.list (item :: items)) => return (parameter.name, item :: items) :: others
      | _ => return others

/-- The parameters that edges with values lead to. -/
def linkedProperties (graph : Graph) (id : NodeId) : List String :=
  graph.edges.filterMap fun edge =>
    if edge.target = id then edge.kind.link?.map (·.targetProperty) else none

/-- What a node is repeated for. A single edge from an output is nothing to repeat it for. -/
def drivers (id : NodeId) : GraphM Drivers := do
  let graph ← get
  let found ← (graph.incoming id).foldlM addDriver {}
  let node ← nodeAt id
  let lists ← listDrivers id (graph.linkedProperties id) node.spec.parameters
  return { found with lists, strands := found.strands.filter fun s => 1 < s.edges.length }

end Pipework.Graph
