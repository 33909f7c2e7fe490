import Pipework.Pipeline.Basic

/-!
# Putting pipelines together

Small changes to parameters, jobs and pipelines, each giving back what it changed, so that
a definition can be written as a chain of them. A job that is put together runs the tool
of its own name until another one is chosen.
-/

namespace Pipework

namespace Parameter

/-- A parameter of which only the name is known. -/
def named (name : String) : Parameter := { name }

/-- Makes the parameter take lists. -/
def list (p : Parameter) : Parameter := { p with isList := true }

/-- Makes the parameter an output. -/
def output (p : Parameter) : Parameter := { p with isOutput := true }

/-- Makes the values of the parameter paths. -/
def file (p : Parameter) : Parameter := { p with isFile := true }

/-- Makes a value obligatory. -/
def mandatory (p : Parameter) : Parameter := { p with isMandatory := true }

/-- Gives the parameter a default. -/
def withDefault (p : Parameter) (value : Value) : Parameter := { p with default? := some value }

/-- Says how the job of the parameter is repeated. -/
def withExpand (p : Parameter) (mode : ExpandMode) : Parameter := { p with expandMode := mode }

end Parameter

namespace Job

/-- A job of which only the name is known. It runs the tool of that name. -/
def named (id : String) : Job := { id, toolId := id }

/-- Chooses the tool. -/
def tool (job : Job) (toolId : String) : Job := { job with toolId }

/-- Gives a key a value, whether or not there is a parameter for it. -/
def config (job : Job) (key : String) (value : Value) : Job :=
  { job with configuration := job.configuration.insert key value }

/-- Adds a parameter, with a value if one is given. -/
def parameter (job : Job) (p : Parameter) (value? : Option Value) : Job :=
  let configured := match value? with
    | some value => job.config p.name value
    | none => job
  { configured with parameters := job.parameters ++ [p] }

/-- Adds an input with its value. -/
def input (job : Job) (name : String) (value : Value) : Job :=
  job.parameter (.named name) (some value)

/-- Adds an input that takes lists, with its value. -/
def listInput (job : Job) (name : String) (value : Value) : Job :=
  job.parameter (Parameter.named name).list (some value)

/-- Adds an output with its value. -/
def output (job : Job) (name : String) (value : Value) : Job :=
  job.parameter (Parameter.named name).output (some value)

/-- Adds an output that takes lists, with its value. -/
def listOutput (job : Job) (name : String) (value : Value) : Job :=
  job.parameter (Parameter.named name).output.list (some value)

/-- Adds an output of paths, with its value. -/
def fileOutput (job : Job) (name : String) (value : Value) : Job :=
  job.parameter (Parameter.named name).output.file (some value)

/-- Adds an obligatory parameter without a value. -/
def mandatory (job : Job) (name : String) : Job :=
  job.parameter (Parameter.named name).mandatory none

/-- Changes the first parameter of this name, if there is one. -/
def modifyParameter (job : Job) (name : String) (change : Parameter → Parameter) : Job :=
  match job.parameters.findIdx? (·.name == name) with
  | some place => { job with parameters := job.parameters.modify place change }
  | none => job

/-- Says how the job is repeated because of a parameter. -/
def expand (job : Job) (name : String) (mode : ExpandMode) : Job :=
  job.modifyParameter name (·.withExpand mode)

/-- Says which value of the repetition before a parameter takes over. -/
def expandValue (job : Job) (name source : String) : Job :=
  job.modifyParameter name fun p => { p with expandValue? := some source }

/-- Puts the job after another one. -/
def runAfter (job : Job) (id : String) : Job := { job with after := job.after ++ [id] }

/-- Puts a pipeline in the place of the tool. -/
def nest (job : Job) (pipeline : Pipeline) : Job := { job with nested? := some pipeline }

end Job

namespace Pipeline

/-- A pipeline without anything in it. -/
def empty : Pipeline := {}

/-- Gives a key a value that all jobs may refer to. -/
def config (pipeline : Pipeline) (key : String) (value : Value) : Pipeline :=
  { pipeline with configuration := pipeline.configuration.insert key value }

/-- Adds a parameter. -/
def parameter (pipeline : Pipeline) (p : Parameter) : Pipeline :=
  { pipeline with parameters := pipeline.parameters ++ [p] }

/-- Adds a job. -/
def job (pipeline : Pipeline) (j : Job) : Pipeline :=
  { pipeline with jobs := pipeline.jobs ++ [j] }

end Pipeline

end Pipework
