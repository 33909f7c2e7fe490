import Pipework.Definition.Value
import Pipework.Options
import Pipework.Pipeline.Basic

/-!
# Parameters and options as JSON

Parameters and the options of a compilation are records. Only the name of a parameter has
to be there, and every field is written.
-/

namespace Pipework

namespace ExpandMode

/-- The word for a mode. -/
def word : ExpandMode → String
  | .none => "none"
  | .parallel => "parallel"
  | .serial => "serial"

/-- The mode that a word stands for. -/
def ofWord? (word : String) : Option ExpandMode :=
  [ExpandMode.none, .parallel, .serial].find? (·.word == word)

/-- Reads a mode. -/
def ofJson? (d : Dialect) : Json → Option ExpandMode
  | .str word => ofWord? word
  | .obj [(word, .null)] =>
    match d with
    | .strict => ofWord? word
    | .document => .none
  | _ => .none

end ExpandMode

/-- Text, or the word for nothing. -/
def textToJson : Option String → Json
  | none => .null
  | some s => .str s

/-- A value, or the word for nothing. -/
def valueToJson : Option Value → Json
  | none => .null
  | some v => v.toJson

namespace Parameter

/-- The keys of a parameter, in the order of its fields. -/
def fieldNames : List String :=
  ["name", "description", "list", "mandatory", "file", "output", "default", "options", "type",
    "expand", "expand_value", "is_default_input", "is_default_output"]

/-- Reads a parameter. -/
def ofJson? (d : Dialect) (json : Json) : Option Parameter := do
  let fields ← d.fields? fieldNames json
  let text key := Dialect.field? fields key (some none) (Dialect.orNull? d.text?)
  let flag key := Dialect.field? fields key (some false) Dialect.flag?
  return {
    name := ← Dialect.field? fields "name" none d.text?
    description? := ← text "description"
    isList := ← flag "list"
    isMandatory := ← flag "mandatory"
    isFile := ← flag "file"
    isOutput := ← flag "output"
    default? := ← Dialect.field? fields "default" (some none)
      (Dialect.orNull? (Value.ofJson? d))
    options := ← Dialect.field? fields "options" (some [])
      (Dialect.list? (Value.ofJson? d))
    type? := ← text "type"
    expandMode := ← Dialect.field? fields "expand" (some .none) (ExpandMode.ofJson? d)
    expandValue? := ← text "expand_value"
    isDefaultInput := ← flag "is_default_input"
    isDefaultOutput := ← flag "is_default_output" }

/-- Writes a parameter. -/
def toJson (p : Parameter) : Json := .obj [
  ("name", .str p.name),
  ("description", textToJson p.description?),
  ("list", .bool p.isList),
  ("mandatory", .bool p.isMandatory),
  ("file", .bool p.isFile),
  ("output", .bool p.isOutput),
  ("default", valueToJson p.default?),
  ("options", .arr (Value.allToJson p.options)),
  ("type", textToJson p.type?),
  ("expand", .str p.expandMode.word),
  ("expand_value", textToJson p.expandValue?),
  ("is_default_input", .bool p.isDefaultInput),
  ("is_default_output", .bool p.isDefaultOutput)]

end Parameter

namespace CompileOptions

/-- The keys of options, in the order of their fields. -/
def fieldNames : List String := ["reduce_dependencies", "expand_nested", "validate"]

/-- Reads options. -/
def ofJson? (d : Dialect) (json : Json) : Option CompileOptions := do
  let fields ← d.fields? fieldNames json
  let flag key := Dialect.field? fields key (some true) Dialect.flag?
  return {
    reduceDependencies := ← flag "reduce_dependencies"
    expandNested := ← flag "expand_nested"
    validate := ← flag "validate" }

end CompileOptions

end Pipework
