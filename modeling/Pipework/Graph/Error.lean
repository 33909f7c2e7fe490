import Pipework.Pipeline.Structure

/-!
# What keeps a graph from being built or prepared

Besides what goes wrong with scopes and references, a definition may not pass the
structure check, numbers of values may not fit together, and jobs may wait for each other
in a circle. Each cause is a constructor, and the words for it stand in one place.
-/

namespace Pipework

/-- Why a graph could not be built or prepared. -/
inductive GraphError where
  /-- The structure check found something. -/
  | invalidPipeline (findings : List Finding)
  /-- A job comes after one that is not there. -/
  | unknownJob (job after : String)
  /-- A scope could not be changed or a reference not be followed. -/
  | scope (error : ScopeError)
  /-- Two parameters of a job bring different numbers of values to repeat it for. -/
  | cardinalityMismatch (job parameter : String) (expected found : Nat)
  /-- A job is to be repeated side by side and one after the other at once. -/
  | mixedExpansion (job : String)
  /-- A link from a list to a single value is still there when values are handed on. -/
  | unsplitManyToOne (job parameter : String)
  /-- These jobs wait for each other, or for jobs that do. -/
  | cycle (jobs : List String)
  /-- A handle or a place names nothing. -/
  | dangling
  deriving DecidableEq, Repr

/-- What is said about the failure. -/
def GraphError.message : GraphError → String
  | .invalidPipeline findings =>
    "invalid pipeline: " ++ "; ".intercalate (findings.map Finding.message)
  | .unknownJob job after => unknownAfterMessage job after
  | .scope error => error.message
  | .cardinalityMismatch job parameter expected found =>
    "parameter '" ++ parameter ++ "' of job '" ++ job ++ "' has " ++ toString found ++
      " values, expected " ++ toString expected
  | .mixedExpansion job => "job '" ++ job ++ "' mixes parallel and serial expansion"
  | .unsplitManyToOne job parameter =>
    "many-to-one edge into '" ++ job ++ "." ++ parameter ++ "' survived node splitting"
  | .cycle jobs => "dependency cycle detected between jobs: " ++ ", ".intercalate jobs
  | .dangling => "a handle names nothing"

end Pipework
