import Pipework.Graph.Merge
import Pipework.Graph.Order

/-!
# Handing on values in a graph

Every edge that hands on a value is applied once, in the order of the nodes that edges end
at and for each node in the order of the edges. So what a node receives is settled before
anything is handed on from it. Relative paths that reach a parameter for files are taken
to lie in the working directory of the job that they come from.
-/

namespace Pipework.Graph

/-- The key under which a job says what directory it works in. -/
def workingDirKey : String := "working_dir"

/-- Puts all paths in a value into a directory. -/
def prefixDirectory (directory : String) : Value → Value :=
  Value.mapLeaves fun
    | .str path => .str (PathText.inDirectory directory path)
    | other => other

/-- What reaches a parameter of the target from the source: paths for files lie in the working
directory of the source, if it has one. -/
def located (source target : Node) (link : DataLink) (value : Value) : Value :=
  if (target.parameter? link.targetProperty).any (·.isFile) then
    match (source.configured? workingDirKey).bind (·.text?) with
    | some directory => prefixDirectory directory value
    | none => value
  else value

/-- Hands on the value of the edge at this place. -/
def applyEdge (place : Nat) : GraphM Unit := do
  let edge ← edgeAt place
  match edge.kind with
  | .after => return
  | .data link => do
    let current ← propertyValue edge.source link.sourceProperty
    let source ← nodeAt edge.source
    let target ← nodeAt edge.target
    let merged ← ofExcept <| Merge.merge edge.kind target.name
      (target.configured? link.targetProperty) (target.declared? link.targetProperty)
      (located source target link (current.getD link.value)) [source.name, source.spec.id]
    match merged with
    | some value => setNodeValue edge.target link.targetProperty value
    | none => return

/-- The places of all edges, in the order in which they are applied. -/
def applicationOrder (graph : Graph) (order : List Node) : List Nat :=
  order.flatMap fun node => graph.incoming node.id

/-- Hands on the values of all edges. -/
def configure : GraphM Unit := do
  let graph ← get
  let order ← ofExcept graph.topologicalOrder
  (graph.applicationOrder order).forM applyEdge

end Pipework.Graph
