import Pipework.Definition.Parameter

/-!
# Pipelines as JSON

Jobs and pipelines are records that contain each other. Only the name of a job has to be
there, and every field is written. Reading follows the JSON down, so the jobs of a pipeline
and the pipeline of a job are looked for apart from the other fields.
-/

namespace Pipework

mutual

/-- Writes a job. -/
def Job.toJson : Job → Json
  | ⟨id, toolId, configuration, after, parameters, nested?⟩ => .obj [
    ("id", .str id),
    ("tool_id", .str toolId),
    ("configuration", configuration.toJson),
    ("after", .arr (after.map .str)),
    ("parameters", .arr (parameters.map Parameter.toJson)),
    ("pipeline", nestedToJson nested?)]

/-- Writes the pipeline of a job, if it has one. -/
def nestedToJson : Option (PipelineOf Job) → Json
  | none => .null
  | some ⟨configuration, parameters, jobs⟩ => .obj [
    ("configuration", configuration.toJson),
    ("parameters", .arr (parameters.map Parameter.toJson)),
    ("jobs", .arr (jobsToJson jobs))]

/-- Writes jobs. -/
def jobsToJson : List Job → List Json
  | [] => []
  | job :: jobs => job.toJson :: jobsToJson jobs

end

/-- Writes a pipeline. -/
def Pipeline.toJson (pipeline : Pipeline) : Json := nestedToJson (some pipeline)

/-- The keys of a pipeline, in the order of its fields. -/
def Pipeline.fieldNames : List String := ["configuration", "parameters", "jobs"]

/-- The keys of a job, in the order of its fields. -/
def Job.fieldNames : List String :=
  ["id", "tool_id", "configuration", "after", "parameters", "pipeline"]

/-- Reads the settings among the fields of a pipeline or of a job. -/
def configurationIn? (d : Dialect) (fields : List (String × Json)) : Option Settings :=
  Dialect.field? fields "configuration" (some ∅) (Settings.ofJson? d)

/-- Reads the parameters among the fields of a pipeline or of a job. -/
def parametersIn? (d : Dialect) (fields : List (String × Json)) : Option (List Parameter) :=
  Dialect.field? fields "parameters" (some []) (Dialect.list? (Parameter.ofJson? d))

/-- Reads a pipeline with these jobs. -/
def pipelineWith? (d : Dialect) (json : Json) (jobs? : Option (List Job)) : Option Pipeline := do
  let fields ← d.fields? Pipeline.fieldNames json
  return {
    configuration := ← configurationIn? d fields
    parameters := ← parametersIn? d fields
    jobs := ← jobs? }

/-- Reads a job with this pipeline. -/
def jobWith? (d : Dialect) (json : Json) (nested? : Option (Option Pipeline)) : Option Job := do
  let fields ← d.fields? Job.fieldNames json
  return {
    id := ← Dialect.field? fields "id" none d.text?
    toolId := ← Dialect.field? fields "tool_id" (some "") d.text?
    configuration := ← configurationIn? d fields
    after := ← Dialect.field? fields "after" (some []) (Dialect.list? d.text?)
    parameters := ← parametersIn? d fields
    nested? := ← nested? }

mutual

/-- Reads a pipeline. -/
def Pipeline.ofJson? (d : Dialect) : Json → Option Pipeline
  | .obj fields => pipelineWith? d (.obj fields) (jobsIn? d fields)
  | .arr items => pipelineWith? d (.arr items) (jobsAt? d items)
  | _ => none

/-- Reads the jobs among the fields of a pipeline. -/
def jobsIn? (d : Dialect) : List (String × Json) → Option (List Job)
  | [] => some []
  | (key, json) :: fields =>
    if key == "jobs" then
      match json with
      | .arr items => jobsOfJson? d items
      | _ => none
    else jobsIn? d fields

/-- Reads the jobs at their place in the compact form of a pipeline. -/
def jobsAt? (d : Dialect) : List Json → Option (List Job)
  | [_, _, .arr items] => jobsOfJson? d items
  | [_, _, _] => none
  | _ => some []

/-- Reads jobs. -/
def jobsOfJson? (d : Dialect) : List Json → Option (List Job)
  | [] => some []
  | item :: items => do
    let first ← Job.ofJson? d item
    let others ← jobsOfJson? d items
    return first :: others

/-- Reads a job. -/
def Job.ofJson? (d : Dialect) : Json → Option Job
  | .obj fields => jobWith? d (.obj fields) (nestedIn? d fields)
  | .arr items => jobWith? d (.arr items) (nestedAt? d items)
  | _ => none

/-- Reads the pipeline among the fields of a job. -/
def nestedIn? (d : Dialect) : List (String × Json) → Option (Option Pipeline)
  | [] => some none
  | (key, json) :: fields =>
    if key == "pipeline" then
      match json with
      | .null => some none
      | json => (Pipeline.ofJson? d json).map some
    else nestedIn? d fields

/-- Reads the pipeline at its place in the compact form of a job. -/
def nestedAt? (d : Dialect) : List Json → Option (Option Pipeline)
  | [_, _, _, _, _, .null] => some none
  | [_, _, _, _, _, json] => (Pipeline.ofJson? d json).map some
  | _ => some none

end

/-- A job may be written as its name alone, in a list. -/
example : ((Job.ofJson? .strict (.arr [.str "a"])).map (·.id), (Job.ofJson? .document (.obj
    [("id", .int 5)])).map (·.id), (Job.ofJson? .strict (.obj [("id", .int 5)])).map (·.id)) =
    (some "a", some "5", none) := by decide +kernel

end Pipework
