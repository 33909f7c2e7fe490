import Pipework.Definition.Text
import Pipework.Report

/-!
# Commands

One command compiles the definition in a file and shows the graph, the other one only says
whether everything obligatory is there. What a command answers is determined by its
arguments, by what the file holds, and by the reader that tells which data a document holds,
so answering needs no access to files. A command
fails if the definition cannot be compiled, or if something obligatory is missing.
-/

namespace Pipework

/-- What is to be done. -/
inductive Command where
  /-- Compile the definition in a file and show the graph. -/
  | compile (file : String) (keepsImplied asJson : Bool)
  /-- Check the definition in a file. -/
  | validate (file : String)
  deriving DecidableEq, Repr

/-- What has been met among the arguments of a command. -/
structure Arguments where
  /-- The file, if it was named. -/
  file? : Option String := none
  /-- Whether edges are kept that longer paths imply. -/
  keepsImplied : Bool := false
  /-- Whether the graph is shown as JSON. -/
  asJson : Bool := false
  deriving DecidableEq, Repr

namespace Arguments

/-- Takes note of one argument. Nothing may be said twice, and no other switches exist. -/
def note (arguments : Arguments) (argument : String) : Option Arguments :=
  if argument = "--no-reduce" then
    if arguments.keepsImplied then none else some { arguments with keepsImplied := true }
  else if argument = "--json" then
    if arguments.asJson then none else some { arguments with asJson := true }
  else if argument.startsWith "-" || arguments.file?.isSome then none
  else some { arguments with file? := some argument }

end Arguments

namespace Command

/-- How the program is called. -/
def usage : String := "usage: compile [--no-reduce] [--json] FILE | validate FILE\n"

/-- Reads the arguments of the program. -/
def ofArguments? : List String → Option Command
  | "compile" :: rest => do
    let arguments ← rest.foldlM Arguments.note {}
    return .compile (← arguments.file?) arguments.keepsImplied arguments.asJson
  | ["validate", file] => if file.startsWith "-" then none else some (.validate file)
  | _ => none

/-- The file with the definition. -/
def file : Command → String
  | .compile file _ _ => file
  | .validate file => file

/-- The options that the definition is compiled with. -/
def options : Command → CompileOptions
  | .compile _ keepsImplied _ => { reduceDependencies := !keepsImplied }
  | .validate _ => {}

end Command

/-- Why a command cannot be carried out. -/
inductive CommandError where
  /-- There is no such file. -/
  | missingFile (file : String)
  /-- The file does not hold a definition. -/
  | badFile (file : String) (error : DefinitionError)
  /-- The definition cannot be compiled. -/
  | compile (error : GraphError)
  deriving DecidableEq, Repr

/-- What is said about the failure. -/
def CommandError.message : CommandError → String
  | .missingFile file => "Failed to read YAML file from " ++ file
  | .badFile file error =>
    "Failed to load pipeline from " ++ file ++ "\n\nCaused by:\n    0: " ++ error.message
  | .compile error => error.message

/-- What a command leaves behind. -/
structure Outcome where
  /-- The exit code, zero for success. -/
  exitCode : Nat
  /-- What is shown. -/
  output : String := ""
  /-- What is complained about. -/
  complaints : String := ""
  deriving DecidableEq, Repr

namespace Outcome

/-- Lines, each with its end. -/
def joinLines (lines : List String) : String := String.join (lines.map (· ++ "\n"))

/-- The outcome of a command that cannot be carried out. -/
def ofError (error : CommandError) : Outcome where
  exitCode := 1
  complaints := joinLines ["Error: " ++ error.message]

end Outcome

namespace Command

/-- Reads the definition in a file that holds this text, if it is there. -/
def load (read? : String → Option Json) (file : String) (content? : Option String) :
    Except CommandError Pipeline :=
  match content? with
  | none => throw (.missingFile file)
  | some content => (Pipeline.ofText read? content).mapError (.badFile file)

/-- What is shown of a compiled definition, in lines. -/
def shown (command : Command) (compiled : Compiled) : Except GraphError (List String) := do
  match command with
  | .compile _ _ true => return [(← compiled.summary).toJson.pretty]
  | .compile _ _ false => return (← compiled.summary).lines
  | .validate file =>
    if compiled.isValid then return [file ++ ": ok"]
    else return compiled.findings.map Finding.message

/-- What is complained about in a compiled definition, in lines. A check has its findings for
an answer and complains about nothing. -/
def complained (command : Command) (compiled : Compiled) : List String :=
  match command with
  | .compile .. => compiled.findings.map ("error: " ++ ·.message)
  | .validate _ => []

/-- Carries out a command on a file that holds this text, if it is there, or says why that is
impossible. -/
def attempt (read? : String → Option Json) (command : Command) (content? : Option String) :
    Except CommandError Outcome := do
  let pipeline ← load read? command.file content?
  let compiled ← (Pipework.compile command.options pipeline).mapError .compile
  let lines ← (command.shown compiled).mapError .compile
  return {
    exitCode := if compiled.isValid then 0 else 1
    output := Outcome.joinLines lines
    complaints := Outcome.joinLines (command.complained compiled) }

/-- What a command leaves behind on a file that holds this text, if it is there. -/
def run (read? : String → Option Json) (command : Command) (content? : Option String) : Outcome :=
  match command.attempt read? content? with
  | .ok outcome => outcome
  | .error error => .ofError error

/-- Switches may stand on both sides of the file. -/
example : ofArguments? ["compile", "--json", "a.yaml", "--no-reduce"] =
    some (.compile "a.yaml" true true) := by decide +kernel

end Command

end Pipework
