/-!
# Options of a compilation

Which of the optional stages of a compilation run. All of them do unless they are turned
off.
-/

namespace Pipework

/-- Which stages run. -/
structure CompileOptions where
  /-- Whether edges are dropped that longer paths imply. -/
  reduceDependencies : Bool := true
  /-- Whether jobs with a pipeline of their own are replaced by its jobs. -/
  expandNested : Bool := true
  /-- Whether obligatory parameters are checked. -/
  validate : Bool := true
  deriving DecidableEq, Repr

end Pipework
