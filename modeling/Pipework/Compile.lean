import Pipework.Graph.Prepare
import Pipework.Graph.Reduce
import Pipework.Graph.Summary
import Pipework.Graph.Validate

/-!
# Compiling pipelines

A pipeline is compiled by building its graph, preparing it, dropping the edges that others
imply, and checking obligatory parameters. What the check finds comes along with the graph
and does not stop anything.
-/

namespace Pipework

/-- A prepared graph, and what is wrong with it. -/
structure Compiled where
  /-- The graph. -/
  graph : Graph
  /-- What the check of obligatory parameters found. -/
  findings : List Finding

/-- Whether nothing was found. -/
def Compiled.isValid (compiled : Compiled) : Bool := compiled.findings.isEmpty

/-- Takes a graph through the stages of a compilation. -/
def compileStages (options : CompileOptions) : GraphM Unit := do
  Graph.prepare options
  if options.reduceDependencies then do
    let _ ← Graph.reduce

/-- Compiles a pipeline. -/
def compile (options : CompileOptions) (pipeline : Pipeline) : Except GraphError Compiled := do
  let graph ← Graph.build pipeline
  match compileStages options graph with
  | .error e _ => throw e
  | .ok _ graph =>
    if options.validate then
      let (findings, graph) := Graph.validate graph
      return ⟨graph, findings⟩
    else return ⟨graph, []⟩

/-- The summary of what was compiled. -/
def Compiled.summary (compiled : Compiled) : Except GraphError Summary :=
  match Graph.summarize compiled.graph with
  | .ok summary _ => .ok summary
  | .error e _ => .error e

end Pipework
