import Pipework.Graph.Node

/-!
# Edges

An edge leads from a node to one that has to come after it. Most edges also hand on the
value of an output to a parameter, and say whether a single value or a list goes out at
one end and in at the other.
-/

namespace Pipework

/-- Whether a single value or a list leaves the source and enters the target. -/
inductive Cardinality where
  /-- A single value becomes a single value. -/
  | oneToOne
  /-- A single value goes into a list. -/
  | oneToMany
  /-- A list meets a place for a single value. -/
  | manyToOne
  /-- A list goes into a list. -/
  | manyToMany
  deriving DecidableEq, Repr

namespace Cardinality

/-- What flows when the source gives a list or not and the target takes a list or not. -/
def between : Bool → Bool → Cardinality
  | true, true => .manyToMany
  | true, false => .manyToOne
  | false, true => .oneToMany
  | false, false => .oneToOne

/-- The name under which it is shown. -/
def label : Cardinality → String
  | .oneToOne => "One2One"
  | .oneToMany => "One2Many"
  | .manyToOne => "Many2One"
  | .manyToMany => "Many2Many"

end Cardinality

/-- What an edge hands on. -/
structure DataLink where
  /-- How many values flow. -/
  cardinality : Cardinality
  /-- The output of the source. -/
  sourceProperty : String
  /-- The parameter of the target. -/
  targetProperty : String
  /-- The value of the output when the edge was made. -/
  value : Value
  /-- The place of the one element that is handed on, if it is a single one of a list. -/
  splitIndex? : Option Nat
  deriving DecidableEq, Repr

/-- The link with only one element of the list at its source left to be handed on. -/
def DataLink.single (link : DataLink) (index : Nat) (value : Value) : DataLink :=
  { link with cardinality := .oneToOne, splitIndex? := some index, value }

/-- What an edge is for. -/
inductive EdgeKind where
  /-- Order only. -/
  | after
  /-- Order, and handing on a value. -/
  | data (link : DataLink)
  deriving DecidableEq, Repr

namespace EdgeKind

/-- What is handed on, if anything is. -/
def link? : EdgeKind → Option DataLink
  | .data link => some link
  | .after => none

/-- The name under which it is shown. -/
def label : EdgeKind → String
  | .after => "After"
  | .data link => link.cardinality.label

end EdgeKind

/-- A dependency between two nodes. -/
structure Edge where
  /-- The node that comes first. -/
  source : NodeId
  /-- The node that has to wait. -/
  target : NodeId
  /-- What the edge is for. -/
  kind : EdgeKind
  deriving DecidableEq, Repr

namespace Edge

/-- An edge for the order only. -/
def after (source target : NodeId) : Edge := ⟨source, target, .after⟩

/-- An edge that hands on a value. -/
def data (source target : NodeId) (link : DataLink) : Edge := ⟨source, target, .data link⟩

/-- Whether the node is at one of the ends. -/
def touches (edge : Edge) (id : NodeId) : Bool := edge.source == id || edge.target == id

end Edge

end Pipework
