import Pipework.Command

/-!
# The program

Reads the file that a command names, carries out the command, and shows what it leaves
behind. Which data a document holds is told by a reader that is given.
-/

namespace Pipework

/-- The text of a file, if it can be read. -/
def readFile? (file : String) : IO (Option String) := do
  try
    return some (← IO.FS.readFile file)
  catch _ => return none

/-- Shows what a command leaves behind. -/
def Outcome.report (outcome : Outcome) : IO UInt32 := do
  IO.print outcome.output
  IO.eprint outcome.complaints
  return outcome.exitCode.toUInt32

/-- Carries out the command that the arguments ask for, with this reader of documents. -/
def runProgram (read? : String → Option Json) (arguments : List String) : IO UInt32 := do
  match Command.ofArguments? arguments with
  | some command => (command.run read? (← readFile? command.file)).report
  | none =>
    IO.eprint Command.usage
    return 2

end Pipework
