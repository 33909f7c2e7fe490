import Pipework.Definition.Dialect
import Pipework.Settings

/-!
# Values as JSON

Every value can be written as JSON, and all JSON but the word for nothing and objects can
be read as a value. An integer that does not fit becomes the nearest number. A number that
comes as it is written is read by its dialect where it lies beyond what numbers hold: a
document refuses some integers and takes what is beyond all finite numbers for text, and
data refuses it.
-/

namespace Pipework

/-- Why JSON is not read as a value. -/
inductive ValueError where
  /-- The word for nothing is no value. -/
  | null
  /-- An object is no value. -/
  | object
  /-- An integer is too wide for 64 bits, and not too wide for 128. -/
  | wideInteger
  /-- A number is beyond all finite ones. -/
  | infinite
  deriving DecidableEq, Repr

/-- What is said about the failure. -/
def ValueError.message : ValueError → String
  | .null => "null is not a configuration value"
  | .object => "maps are not configuration values"
  | .wideInteger => "integers of 128 bits are not configuration values"
  | .infinite => "numbers beyond all finite ones are not configuration values"

namespace Value

/-- The value of an integer, which is the nearest number if the integer does not fit. -/
def ofInteger (n : Int) : Value :=
  if Int64.minValue.toInt ≤ n ∧ n ≤ Int64.maxValue.toInt then .int (Int64.ofInt n)
  else .float (Binary64.ofInt n)

/-- The least integer of 128 bits. -/
def leastWideInteger : Int := -170141183460469231731687303715884105728

/-- The greatest integer of 128 bits without a sign. -/
def greatestWideInteger : Int := 340282366920938463463374607431768211455

/-- Reads a number, as it is written, as the nearest one with a fraction. -/
def ofWideLiteral (d : Dialect) (literal : String) : Except ValueError Value :=
  match (Binary64.ofText? literal).filter (·.isFinite), d with
  | some x, _ => return .float x
  | none, .strict => throw .infinite
  | none, .document => return .str literal

/-- Reads a number as it is written. -/
def ofLiteral (d : Dialect) (literal : String) : Except ValueError Value :=
  match Decimal.readInteger? literal.toList with
  | none => ofWideLiteral d literal
  | some n =>
    if Json.leastInteger ≤ n ∧ n ≤ Json.greatestInteger then return ofInteger n
    else if d = .document ∧ leastWideInteger ≤ n ∧ n ≤ greatestWideInteger then
      throw .wideInteger
    else ofWideLiteral d literal

mutual

/-- Reads a value. Of several failures the first one counts. -/
def ofJson (d : Dialect) : Json → Except ValueError Value
  | .null => throw .null
  | .bool b => return .bool b
  | .int n => return ofInteger n
  | .float x => return .float x
  | .number literal => ofLiteral d literal
  | .str s => return .str s
  | .arr items => do return .list (← allOfJson d items)
  | .obj _ => throw .object

/-- Reads values. -/
def allOfJson (d : Dialect) : List Json → Except ValueError (List Value)
  | [] => return []
  | item :: items => do
    let first ← ofJson d item
    let others ← allOfJson d items
    return first :: others

end

mutual

/-- Writes a value. -/
def toJson : Value → Json
  | .bool b => .bool b
  | .int n => .int n.toInt
  | .float x => .float x
  | .str s => .str s
  | .list items => .arr (allToJson items)

/-- Writes values. -/
def allToJson : List Value → List Json
  | [] => []
  | item :: items => item.toJson :: allToJson items

end

/-- Reads a value, and does not tell why that failed. -/
def ofJson? (d : Dialect) (json : Json) : Option Value := (ofJson d json).toOption

end Value

namespace Settings

/-- Reads settings. Of several values under one key the last one counts. -/
def ofJson? (d : Dialect) : Json → Option Settings
  | .obj fields => do
    let entries ← fields.mapM fun (key, json) => (Value.ofJson? d json).map (key, ·)
    return ofList entries
  | _ => none

/-- Writes settings. -/
def toJson (s : Settings) : Json := .obj (s.entries.map fun (key, value) => (key, value.toJson))

end Settings

end Pipework
