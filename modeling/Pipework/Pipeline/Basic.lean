import Pipework.Settings

/-!
# Pipelines

A pipeline is a list of jobs with settings and parameters that they share. A job names the
tool it runs, gives values to its parameters, and says which jobs it has to come after;
instead of running a tool it may hold a pipeline of its own. Jobs and pipelines contain
each other, so the record of a pipeline leaves open what its jobs are, and the jobs close
the circle.
-/

namespace Pipework

/-- How a job is repeated that receives more values than it can take. -/
inductive ExpandMode where
  /-- Nothing is said about it. -/
  | none
  /-- The repetitions run side by side. -/
  | parallel
  /-- Each repetition waits for the one before. -/
  | serial
  deriving DecidableEq, Repr, Inhabited

/-- A place for a value on a job or on a pipeline. -/
structure Parameter where
  /-- The key of its value. -/
  name : String
  /-- What is said about it. -/
  description? : Option String := .none
  /-- Whether it takes a list as a whole. -/
  isList : Bool := false
  /-- Whether it must have a value. -/
  isMandatory : Bool := false
  /-- Whether its values are paths. -/
  isFile : Bool := false
  /-- Whether the job writes it, so that other jobs may read it. -/
  isOutput : Bool := false
  /-- The value it has when no other is given. -/
  default? : Option Value := .none
  /-- The values one may choose from. -/
  options : List Value := []
  /-- The name of its type. -/
  type? : Option String := .none
  /-- How its job is repeated. -/
  expandMode : ExpandMode := .none
  /-- The parameter of the repetition before, whose value it takes over. -/
  expandValue? : Option String := .none
  /-- Whether values come in here unless a parameter is named. -/
  isDefaultInput : Bool := false
  /-- Whether values go out from here unless a parameter is named. -/
  isDefaultOutput : Bool := false
  deriving DecidableEq

/-- A pipeline of jobs of some type. -/
structure PipelineOf (J : Type) where
  /-- Values that all jobs may refer to. -/
  configuration : Settings := ∅
  /-- What the pipeline wants to be given. -/
  parameters : List Parameter := []
  /-- The jobs, in the order they are listed in. -/
  jobs : List J := []

/-- A step of a pipeline. -/
structure Job where
  /-- The name, which must not be empty or taken. -/
  id : String
  /-- The tool to run. -/
  toolId : String := ""
  /-- The values of parameters, and any other values. -/
  configuration : Settings := ∅
  /-- The jobs that have to be finished before. -/
  after : List String := []
  /-- The places for values. -/
  parameters : List Parameter := []
  /-- The pipeline that runs in the place of a tool. -/
  nested? : Option (PipelineOf Job) := none

/-- A pipeline as it is defined. -/
abbrev Pipeline := PipelineOf Job

/-- The parameter of this name, the first one if there are several. -/
def Job.parameter? (job : Job) (name : String) : Option Parameter :=
  job.parameters.find? (·.name == name)

/-- The value given to a key in the definition, else the default of its parameter. -/
def Job.declared? (job : Job) (name : String) : Option Value :=
  (job.configuration.get? name).or ((job.parameter? name).bind (·.default?))

/-- The job of this name, the first one if there are several. -/
def Pipeline.job? (pipeline : Pipeline) (id : String) : Option Job :=
  pipeline.jobs.find? (·.id == id)

mutual

/-- How deep pipelines lie inside each other within a job. -/
def Job.depth : Job → Nat
  | ⟨_, _, _, _, _, nested?⟩ => nestedDepth nested?

/-- How deep pipelines lie inside each other, this one counted if it is there. -/
def nestedDepth : Option (PipelineOf Job) → Nat
  | none => 0
  | some ⟨_, _, jobs⟩ => jobsDepth jobs + 1

/-- The greatest depth among jobs. -/
def jobsDepth : List Job → Nat
  | [] => 0
  | job :: jobs => max job.depth (jobsDepth jobs)

end

end Pipework
