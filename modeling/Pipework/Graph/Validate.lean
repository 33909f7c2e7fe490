import Pipework.Graph.Order

/-!
# Checking obligatory parameters

An obligatory parameter needs a value that is not an empty list. Parameters of the
pipeline are checked first, then those of the nodes in their order. The check never
fails: a value that cannot be found out is a finding like any other. It touches nothing
but what is remembered of values.
-/

namespace Pipework.Graph

/-- Whether there is no value or one without anything in it. -/
def isUnset (value? : Option Value) : Bool := value?.all (·.isEmptyList)

/-- Runs a step on the scope tree and tells its failure as a result. -/
def attempt {α : Type} (action : ScopeM α) : StateM Graph (Except ScopeError α) := fun graph =>
  match action graph.scope with
  | .ok a scope => (.ok a, { graph with scope })
  | .error e scope => (.error e, { graph with scope })

/-- What is wrong with a parameter of the pipeline. -/
def checkPipelineParameter (parameter : Parameter) : StateM Graph (List Finding) := do
  let raw? := ((← get).pipeline.configuration.get? parameter.name).or parameter.default?
  let value? ← match raw? with
    | some raw => do pure (← attempt (ScopeTree.resolve Forest.root raw)).toOption
    | none => pure none
  return if isUnset value? then [.missingPipelineParameter parameter.name] else []

/-- What is wrong with a parameter of a node that has this value, or whose value cannot be found
out. The default stands in for a value. -/
def parameterFindings (job : String) (parameter : Parameter) :
    Except ScopeError (Option Value) → List Finding
  | .ok value? =>
    if isUnset (value?.or parameter.default?) then [.missingParameter job parameter.name] else []
  | .error reason => [.unresolvedParameter job parameter.name reason]

/-- What is wrong with a parameter of a node. The resolved values count if the node keeps
them. -/
def checkParameter (node : Node) (parameter : Parameter) : StateM Graph (List Finding) := do
  let value? ← match node.resolved? with
    | some resolved => pure (.ok (resolved.get? parameter.name))
    | none => attempt (readProperty node.name parameter.name)
  return parameterFindings node.name parameter value?

/-- What is wrong with the parameters of a node. -/
def checkNode (node : Node) : StateM Graph (List Finding) := do
  let found ← (node.spec.parameters.filter (·.isMandatory)).mapM (checkParameter node)
  return found.flatten

/-- What is wrong with obligatory parameters. -/
def validate : StateM Graph (List Finding) := do
  let graph ← get
  let overall ←
    (graph.pipeline.parameters.filter (·.isMandatory)).mapM checkPipelineParameter
  let nodes := match graph.topologicalOrder with
    | .ok order => order
    | .error _ => graph.nodes
  let own ← nodes.mapM checkNode
  return overall.flatten ++ own.flatten

end Pipework.Graph
