import Pipework.Pipeline.Basic
import Pipework.Scope.Error

/-!
# Findings, and the check of a definition's structure

A finding is something wrong with a pipeline that does not keep it from being looked at.
The structure check asks that the jobs of a pipeline have names, different ones, and come
after jobs of the same pipeline only; pipelines inside jobs are checked in the same way.
Names are reported before anything else, then job by job what is wrong with it.
-/

namespace Pipework

/-- Something wrong with a pipeline. -/
inductive Finding where
  /-- The job at this place of the list has an empty name. -/
  | emptyJobId (place : Nat)
  /-- A job has a name that an earlier one has. -/
  | duplicateJobId (id : String)
  /-- A job comes after one that is not there. -/
  | unknownAfter (job after : String)
  /-- An obligatory parameter of the pipeline has no value. -/
  | missingPipelineParameter (parameter : String)
  /-- An obligatory parameter of a job has no value. -/
  | missingParameter (job parameter : String)
  /-- The value of an obligatory parameter of a job cannot be found out. -/
  | unresolvedParameter (job parameter : String) (reason : ScopeError)
  deriving DecidableEq, Repr

/-- What is said about a job that comes after one that is not there. -/
def unknownAfterMessage (job after : String) : String :=
  "job '" ++ job ++ "' runs after unknown job '" ++ after ++ "'"

/-- What is said about the finding. -/
def Finding.message : Finding → String
  | .emptyJobId place => "job at position " ++ toString place ++ " has an empty id"
  | .duplicateJobId id => "duplicate job id '" ++ id ++ "'"
  | .unknownAfter job after => unknownAfterMessage job after
  | .missingPipelineParameter parameter =>
    "pipeline parameter '" ++ parameter ++ "' is mandatory but not set"
  | .missingParameter job parameter =>
    "job '" ++ job ++ "': parameter '" ++ parameter ++ "' is mandatory but not set"
  | .unresolvedParameter job parameter reason =>
    "job '" ++ job ++ "': parameter '" ++ parameter ++ "' cannot be resolved: " ++ reason.message

namespace Structure

/-- What is wrong with the names of jobs, the first of which stands at `place`, when these
names are taken. An empty name takes nothing. -/
def nameFindings (place : Nat) (taken : List String) : List String → List Finding
  | [] => []
  | id :: ids =>
    if id = "" then .emptyJobId place :: nameFindings (place + 1) taken ids
    else if id ∈ taken then .duplicateJobId id :: nameFindings (place + 1) taken ids
    else nameFindings (place + 1) (id :: taken) ids

/-- What is wrong with the jobs that a job comes after, among jobs of these names. -/
def afterFindings (names : List String) (job : String) (after : List String) : List Finding :=
  (after.filter (· ∉ names)).map (.unknownAfter job)

mutual

/-- What is wrong with a pipeline and with those inside its jobs. -/
def findings : PipelineOf Job → List Finding
  | ⟨_, _, jobs⟩ =>
    nameFindings 0 [] (jobs.map (·.id)) ++ jobsFindings (jobs.map (·.id)) jobs

/-- What is wrong with jobs apart from their names, among jobs of these names. -/
def jobsFindings (names : List String) : List Job → List Finding
  | [] => []
  | ⟨id, _, _, after, _, nested?⟩ :: jobs =>
    afterFindings names id after ++ nestedFindings nested? ++ jobsFindings names jobs

/-- What is wrong with the pipeline inside a job, if there is one. -/
def nestedFindings : Option (PipelineOf Job) → List Finding
  | none => []
  | some pipeline => findings pipeline

end

end Structure

end Pipework
