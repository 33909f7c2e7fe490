import Pipework.Compile
import Pipework.Definition.Value

/-!
# Showing graphs

The summary of a graph is shown in one of two forms. As JSON it is one object with all
nodes and all edges. As text every node has a line, with a line for each of its values
behind it, and then every edge has one.
-/

namespace Pipework

/-- The node as JSON. -/
def NodeSummary.toJson (node : NodeSummary) : Json := .obj [
  ("id", .str node.id),
  ("tool_id", .str node.toolId),
  ("split", .bool node.isReplica),
  ("configuration", node.configuration.toJson)]

/-- The node in lines. -/
def NodeSummary.lines (node : NodeSummary) : List String :=
  node.id :: node.configuration.entries.map fun (key, value) =>
    "    " ++ key ++ " = " ++ value.toJson.compact

/-- The ends of what an edge hands on, as fields. -/
def EdgeKind.endFields (kind : EdgeKind) : List (String × Json) :=
  match kind.link? with
  | none => []
  | some link =>
    [("source_property", .str link.sourceProperty), ("target_property", .str link.targetProperty)]

/-- The edge as JSON. -/
def EdgeSummary.toJson (edge : EdgeSummary) : Json := .obj ([
  ("source", .str edge.source),
  ("target", .str edge.target),
  ("kind", .str edge.kind.label)] ++ edge.kind.endFields)

/-- The edge in one line. -/
def EdgeSummary.line (edge : EdgeSummary) : String :=
  let (source, target) := match edge.kind.link? with
    | none => (edge.source, edge.target)
    | some link =>
      (edge.source ++ "." ++ link.sourceProperty, edge.target ++ "." ++ link.targetProperty)
  source ++ " -> " ++ target ++ " [" ++ edge.kind.label ++ "]"

namespace Summary

/-- The summary as JSON. -/
def toJson (summary : Summary) : Json := .obj [
  ("nodes", .arr (summary.nodes.map NodeSummary.toJson)),
  ("edges", .arr (summary.edges.map EdgeSummary.toJson))]

/-- The summary in lines, nodes and edges parted by an empty one. -/
def lines (summary : Summary) : List String :=
  summary.nodes.flatMap NodeSummary.lines ++ "" :: summary.edges.map EdgeSummary.line

end Summary

end Pipework
