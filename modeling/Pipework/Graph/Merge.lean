import Pipework.Graph.Edge
import Pipework.Graph.Error
import Pipework.Scope.FileField

/-!
# Handing on values along an edge

The value of an output is put into what the target has for its parameter. A single value
takes the place of the references to the output in a text, or of anything else that is
there. A list gathers: what is not waiting to be filled stays, the new values come behind
it, and nothing is in it twice. Segments behind the output's name ask for parts of it, as
they were written in the definition of the target.
-/

namespace Pipework.Merge

/-- The segments behind a path's first two, if these name the output of a source that goes by
one of the given names. -/
def fieldsOf? (property : String) (names : List String) : List String → Option (List String)
  | owner :: output :: fields => if output = property ∧ owner ∈ names then some fields else none
  | _ => none

/-- Whether a token is a reference to the output. -/
def mentions (property : String) (names : List String) : Token → Bool
  | .reference path => (fieldsOf? property names path).isSome
  | .literal _ => false

/-- The path of a value that is one reference to the output and nothing else, and the segments
in it that ask for parts. -/
def placeholder? (property : String) (names : List String) (value : Value) :
    Option (List String × List String) := do
  let text ← value.text?
  let path ← Template.singleReference? text
  let fields ← fieldsOf? property names path
  return (path, fields)

/-- What the source adds to a list: its value, or for each place in the definition that is
filled by it, the part of the value that is asked for there. -/
def incoming (declared? : Option Value) (sourceValue : Value) (property : String)
    (names : List String) : Except ScopeError (List Value) :=
  match ((declared?.map Value.toList).getD []).filterMap (placeholder? property names) with
  | [] => .ok [sourceValue]
  | places => places.mapM fun place =>
      FileField.derive sourceValue place.2 (joinPath place.1)

/-- The text of a token with a reference to the output replaced by the value. -/
def fillToken (value : Value) (property : String) (names : List String) :
    Token → Except ScopeError String
  | .literal text => .ok text
  | .reference path =>
    match fieldsOf? property names path with
    | some fields => do return (← FileField.derive value fields (joinPath path)).render
    | none => .ok (formatReference path)

/-- Puts a value in the place of the references to the output in a text. A text that is one
such reference becomes the value, and so does a text that has none; a list does not go into
text and takes its place. -/
def substitute (raw : String) (value : Value) (property : String) (names : List String) :
    Except ScopeError Value :=
  match Template.tokenize raw with
  | [.reference path] =>
    match fieldsOf? property names path with
    | some fields => FileField.derive value fields (joinPath path)
    | none => .ok value
  | tokens =>
    if !tokens.any (mentions property names) || value.isList then .ok value
    else do return .str (String.join (← tokens.mapM (fillToken value property names)))

/-- The one element that a link hands on, if it hands on a single one of a list. -/
def pick (link : DataLink) (sourceValue : Value) : Value :=
  match link.splitIndex?, sourceValue with
  | some place, .list items => items[place]?.getD link.value
  | _, _ => sourceValue

/-- What becomes of a value that waits for a single one. -/
def fill (link : DataLink) (existing? : Option Value) (sourceValue : Value)
    (names : List String) : Except ScopeError Value :=
  match existing? with
  | some (.str raw) => substitute raw (pick link sourceValue) link.sourceProperty names
  | _ => .ok (pick link sourceValue)

/-- What becomes of a list that gathers values, with those of its elements kept that pass the
test. -/
def gather (link : DataLink) (existing? declared? : Option Value) (sourceValue : Value)
    (names : List String) (keep : Value → Bool) : Except ScopeError Value := do
  let added ← incoming declared? sourceValue link.sourceProperty names
  let kept := ((existing?.map Value.toList).getD []).filter keep
  return .list (Value.flattenUnique (kept ++ added))

/-- A failure to follow a reference, as one of the graph. -/
def lift {α : Type} : Except ScopeError α → Except GraphError α := Except.mapError .scope

/-- The new value of the parameter at the end of an edge, or nothing if the edge hands on none.
The parameter has the value `existing?` now and had `declared?` in the definition; the source
is referred to under any of `names`. -/
def merge (kind : EdgeKind) (target : String) (existing? declared? : Option Value)
    (sourceValue : Value) (names : List String) : Except GraphError (Option Value) :=
  match kind with
  | .after => .ok none
  | .data link =>
    match link.cardinality with
    | .oneToOne => do return some (← lift (fill link existing? sourceValue names))
    | .oneToMany => do
      return some (← lift (gather link existing? declared? sourceValue names (!·.mayRefer)))
    | .manyToMany => do
      return some (← lift (gather link existing? declared? sourceValue names fun v =>
        (placeholder? link.sourceProperty names v).isNone))
    | .manyToOne => .error (.unsplitManyToOne target link.targetProperty)

end Pipework.Merge
