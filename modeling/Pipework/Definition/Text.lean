import Pipework.Definition.Pipeline

/-!
# Definitions as text

A definition is a document that holds a pipeline. How documents are written is left open: a
reader of documents tells which data a text holds, if it holds any, with numbers as they are
written. Whatever is wrong with a definition, reading it fails in one way only.
-/

namespace Pipework

/-- Why a definition is not read. -/
inductive DefinitionError where
  /-- The text is no document, or does not hold a pipeline. -/
  | unreadable
  deriving DecidableEq, Repr

/-- What is said about the failure. -/
def DefinitionError.message : DefinitionError → String
  | .unreadable => "Failed to deserialize pipeline definition"

/-- Reads a definition with this reader of documents. -/
def Pipeline.ofText (read? : String → Option Json) (text : String) :
    Except DefinitionError Pipeline :=
  match (read? text).bind (Pipeline.ofJson? .document) with
  | some pipeline => .ok pipeline
  | none => .error .unreadable

end Pipework
