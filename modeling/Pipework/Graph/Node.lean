import Pipework.Pipeline.Basic

/-!
# Nodes

A node is a job that takes part in a graph, or a repetition of one. It has values of its
own, which go before those that the definition of the job gives, which in turn go before
the defaults of the parameters. Once all its values are resolved it keeps the result until
one of them is changed.
-/

namespace Pipework

/-- The handle of a node: how many nodes were there before it. -/
abbrev NodeId := Nat

/-- A job in a graph. -/
structure Node where
  /-- The handle. -/
  id : NodeId
  /-- The name, which no other node of the graph has. -/
  name : String
  /-- The job as it was defined. -/
  spec : Job
  /-- Values of the node itself. -/
  overrides : Settings
  /-- Whether the node is one of the repetitions of a job. -/
  isReplica : Bool
  /-- All values resolved, if that has been done since the last change. -/
  resolved? : Option Settings

namespace Node

/-- The node for a job as it is defined. -/
def ofJob (id : NodeId) (spec : Job) : Node where
  id := id
  name := spec.id
  spec := spec
  overrides := ∅
  isReplica := false
  resolved? := none

/-- The parameter of this name. -/
def parameter? (node : Node) (name : String) : Option Parameter := node.spec.parameter? name

/-- The present value of a key, with its references. -/
def configured? (node : Node) (name : String) : Option Value :=
  (node.overrides.get? name).or (node.spec.declared? name)

/-- The value of a key as the definition of the job gives it. -/
def declared? (node : Node) (name : String) : Option Value := node.spec.declared? name

/-- Adds a key behind others unless it is among them. -/
def addKey (keys : List String) (key : String) : List String :=
  if key ∈ keys then keys else keys ++ [key]

/-- The names of all parameters in their order, then the keys of the definition and of the
node's own values that are not among them. -/
def keys (node : Node) : List String :=
  (node.spec.configuration.keys ++ node.overrides.keys).foldl addKey
    (node.spec.parameters.map (·.name))

/-- The present values of all keys that have one, with their references. -/
def raw (node : Node) : Settings :=
  Settings.ofList (node.keys.filterMap fun key => (node.configured? key).map (key, ·))

/-- Gives the node a value of its own. What was resolved no longer counts. -/
def set (node : Node) (name : String) (value : Value) : Node :=
  { node with overrides := node.overrides.insert name value, resolved? := none }

end Node

end Pipework
