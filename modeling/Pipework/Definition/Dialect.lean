import Pipework.Json.Printer

/-!
# Dialects of definitions

Pipelines are defined as JSON, and two dialects of it are in use. The strict one is for
data that is already there as JSON; it knows compact forms, where a record is a list of its
fields in their order, and a mode an object that holds nothing. The dialect of documents is
for files. Where text is wanted it takes any scalar as it is written. In both, fields without
a meaning are passed over, and a field with a meaning may come up only once.
-/

namespace Pipework

/-- How strictly definitions are read. -/
inductive Dialect where
  /-- Data that is there as JSON. -/
  | strict
  /-- Data that is read from a document. -/
  | document
  deriving DecidableEq, Repr

namespace Dialect

/-- Reads text. -/
def text? (d : Dialect) : Json → Option String
  | .str s => some s
  | .arr _ | .obj _ => none
  | scalar =>
    match d with
    | .strict => none
    | .document => some scalar.compact

/-- Reads a truth value. -/
def flag? : Json → Option Bool
  | .bool b => some b
  | _ => none

/-- Reads something that may be missing. -/
def orNull? {α : Type} (read : Json → Option α) : Json → Option (Option α)
  | .null => some none
  | json => (read json).map some

/-- Reads a list. -/
def list? {α : Type} (read : Json → Option α) : Json → Option (List α)
  | .arr items => items.mapM read
  | _ => none

/-- The fields of a record with these keys: an object in which none of them comes up twice,
or the values of the first keys in the compact form. -/
def fields? (d : Dialect) (keys : List String) : Json → Option (List (String × Json))
  | .obj fields =>
    if keys.all fun key => fields.countP (·.1 == key) ≤ 1 then some fields else none
  | .arr items =>
    match d with
    | .strict => if items.length ≤ keys.length then some (keys.zip items) else none
    | .document => none
  | _ => none

/-- Reads the field under a key. What is missing is read as `absent?`. -/
def field? {α : Type} (fields : List (String × Json)) (key : String) (absent? : Option α)
    (read : Json → Option α) : Option α :=
  match fields.lookup key with
  | none => absent?
  | some json => read json

end Dialect

end Pipework
