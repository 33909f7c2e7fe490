import Pipework.PathText
import Pipework.Scope.Error
import Pipework.Value.Basic

/-!
# Parts of file values

Segments of a reference that are left over behind a value ask for parts of it: each scalar
is taken as the text of a path and replaced by its name, its parent or its extension. The
lists around the scalars stay as they are, so a list of paths gives a list of parts.
-/

namespace Pipework

/-- A part of a path. -/
inductive FileField where
  /-- The base name up to its first dot. -/
  | name
  /-- The directory, with its slash. -/
  | parent
  /-- The base name behind its first dot. -/
  | extension
  deriving DecidableEq, Repr

namespace FileField

/-- The part that a segment asks for. -/
def ofText? : String → Option FileField
  | "name" => some .name
  | "parent" => some .parent
  | "extension" => some .extension
  | _ => none

/-- The part of a path. -/
def apply : FileField → String → String
  | .name => PathText.name
  | .parent => PathText.parent
  | .extension => PathText.extension

/-- Replaces one scalar by the part of it that the segment asks for. -/
def deriveScalar (reference segment : String) (scalar : Value) : Except ScopeError Value :=
  match ofText? segment with
  | some field => .ok (.str (field.apply scalar.render))
  | none => .error (.unknownFileField reference segment)

/-- Replaces every scalar of a value by the part that the segments ask for, one segment after
the other. Where there is no scalar, an unknown segment does no harm. -/
def derive (value : Value) (segments : List String) (reference : String) :
    Except ScopeError Value :=
  segments.foldlM (fun v segment => v.mapLeavesM (deriveScalar reference segment)) value

end FileField

end Pipework
