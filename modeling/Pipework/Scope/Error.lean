import Pipework.Template

/-!
# What goes wrong with scopes and references

Each cause is a constructor, and the words for it stand in one place. References appear
in these words as they would be written in a template.
-/

namespace Pipework

/-- Why a scope could not be changed or a reference not be followed. -/
inductive ScopeError where
  /-- A scope with a value was to have a child. -/
  | scopeHasValue (scope : String)
  /-- A scope with children was to have a value. -/
  | scopeHasChildren (scope : String)
  /-- A scope was to have a second child of the same name. -/
  | duplicateScope (parent name : String)
  /-- A reference leads to no scope. -/
  | unresolvedReference (reference : String)
  /-- A value refers to itself, perhaps by way of others. -/
  | selfReference (reference : String)
  /-- Lists of different lengths meet in one template. -/
  | broadcastMismatch (template : String) (left right : Nat)
  /-- A reference goes on behind a value with something that is no part of a path. -/
  | unknownFileField (reference field : String)
  /-- A text that should be one reference is not. -/
  | notSingleReference (text : String)
  /-- A reference leads to a scope without a value. -/
  | notAValue (reference : String)
  /-- A handle or a place names nothing. -/
  | dangling
  deriving DecidableEq, Repr

namespace ScopeError

/-- A reference in the words of an error. -/
def quoted (reference : String) : String := "$\x7b" ++ reference ++ "\x7d"

/-- What is said about the failure. -/
def message : ScopeError → String
  | .scopeHasValue scope => "scope '" ++ scope ++ "' holds a value and cannot have children"
  | .scopeHasChildren scope => "scope '" ++ scope ++ "' has children and cannot hold a value"
  | .duplicateScope parent name =>
    "scope '" ++ parent ++ "' already has a child named '" ++ name ++ "'"
  | .unresolvedReference reference => "unresolved reference " ++ quoted reference
  | .selfReference reference => "self-referencing variable " ++ quoted reference
  | .broadcastMismatch template left right =>
    "cannot broadcast template '" ++ template ++ "': lists of length " ++ toString left ++
      " and " ++ toString right
  | .unknownFileField reference field =>
    "unknown file field '" ++ field ++ "' in " ++ quoted reference
  | .notSingleReference text => "'" ++ text ++ "' is not a single variable reference"
  | .notAValue reference => quoted reference ++ " does not name a value"
  | .dangling => "a handle names nothing"

end ScopeError

end Pipework
