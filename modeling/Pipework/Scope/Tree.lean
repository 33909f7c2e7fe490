import Pipework.Scope.Resolve
import Pipework.Settings

/-!
# Scope trees

A scope tree is a forest of scopes, the memory of what values resolved to, and the outside
objects that values may be bound to. Operations are steps that may fail and leave the tree
as far as they came. Writing a value and detaching a scope forget all that is remembered;
creating a scope does not. A write through a reference also goes to the bound object, which
may refuse it without making the write fail.
-/

namespace Pipework

/-- An outside object with properties. What is behind it is its own affair, so it is known by what
it answers, which may depend on all that it was given before, also on what it refused. -/
structure Source where
  /-- The value of a property, if it has one, after these were given, from the last. -/
  getAfter : List (String × Value) → String → Option Value
  /-- Whether a property takes a value after these were given. -/
  takesAfter : List (String × Value) → String → Value → Bool
  /-- What properties were given so far, from the last. -/
  given : List (String × Value) := []

namespace Source

/-- The value of a property. -/
def get (source : Source) (property : String) : Option Value :=
  source.getAfter source.given property

/-- Gives a value to a property, and tells whether the property takes it. -/
def set (source : Source) (property : String) (value : Value) : Bool × Source :=
  (source.takesAfter source.given property value,
    { source with given := (property, value) :: source.given })

/-- The object that keeps a state and answers from it. -/
def ofState {σ : Type} (get : σ → String → Option Value) (set : σ → String → Value → Bool × σ)
    (state : σ) : Source :=
  let after (given : List (String × Value)) : σ :=
    given.foldr (fun entry state => (set state entry.1 entry.2).2) state
  { getAfter := fun given => get (after given)
    takesAfter := fun given property value => (set (after given) property value).1 }

end Source

/-- Scopes, what is remembered of their values, and the objects bound to them. -/
structure ScopeTree where
  /-- The scopes themselves. -/
  forest : Forest
  /-- What values resolved to since the last write. -/
  memo : Memo
  /-- The outside objects by their names. -/
  sources : List (String × Source)

/-- A step on a scope tree that may fail. What was done before the failure stays done. -/
abbrev ScopeM := EStateM ScopeError ScopeTree

namespace ScopeTree

/-- A root with nothing in it. -/
def initial : ScopeTree := ⟨.initial, [], []⟩

/-- The object of this name. -/
def source? (tree : ScopeTree) (name : String) : Option Source := tree.sources.lookup name

/-- Gives a value to a property of an object, if there is such an object. Whether the property takes
it makes no difference. -/
def writeSource (tree : ScopeTree) (binding : Binding) (value : Value) : ScopeTree :=
  { tree with sources := tree.sources.map fun named =>
      if named.1 = binding.source then (named.1, (named.2.set binding.property value).2)
      else named }

/-- Forgets what values resolved to. -/
def forget (tree : ScopeTree) : ScopeTree := { tree with memo := [] }

/-- Runs a resolution, which touches nothing but the memory. -/
def resolving {α : Type} (action : Forest → ResolveM α) : ScopeM α := fun tree =>
  match action tree.forest tree.memo with
  | .ok a memo => .ok a { tree with memo }
  | .error e memo => .error e { tree with memo }

/-- The scope with this handle. -/
def scopeAt (id : ScopeId) : ScopeM Scope := do
  match (← get).forest.get? id with
  | some scope => return scope
  | none => throw .dangling

/-- Forgets what values resolved to. -/
def invalidate : ScopeM Unit := modify forget

/-- Adds a scope to another one, which must have no value and no child of that name. -/
def createChild (parent : ScopeId) (name : String) : ScopeM ScopeId := do
  let scope ← scopeAt parent
  let forest := (← get).forest
  if scope.content?.isSome then throw (.scopeHasValue (forest.displayName parent))
  else if (forest.child? parent name).isSome then
    throw (.duplicateScope (forest.displayName parent) name)
  else do
    modify fun tree => { tree with forest := forest.addChild parent name }
    return forest.size

/-- Takes the child of that name out of a scope, and tells whether there was one. -/
def removeChild (parent : ScopeId) (name : String) : ScopeM Bool := do
  let forest := (← get).forest
  match forest.child? parent name with
  | some id =>
    modify fun tree => { tree with forest := forest.detach parent id }
    invalidate
    return true
  | none => return false

/-- Stores a value in a scope without children. Without a new binding an old one stays. -/
def store (id : ScopeId) (value : Value) (binding? : Option Binding) : ScopeM Unit := do
  let scope ← scopeAt id
  let forest := (← get).forest
  if scope.children ≠ [] then throw (.scopeHasChildren (forest.displayName id))
  else do
    let kept := binding?.or (scope.content?.bind (·.binding?))
    modify fun tree => { tree with forest := forest.setEntry id ⟨value, kept⟩ }
    invalidate

/-- Gives a scope a value. -/
def setValue (id : ScopeId) (value : Value) : ScopeM Unit := store id value none

/-- Gives a scope the present value of a property, which later writes go to as well. -/
def bind (id : ScopeId) (binding : Binding) : ScopeM Unit := do
  let tree ← get
  match (tree.source? binding.source).bind (·.get binding.property) with
  | some value => store id value (some binding)
  | none => throw (.notAValue (tree.forest.displayName id))

/-- Gives the child of that name a value, and creates it if it is not there. -/
def put (parent : ScopeId) (name : String) (value : Value) : ScopeM ScopeId := do
  let id ← match (← get).forest.child? parent name with
    | some id => pure id
    | none => createChild parent name
  setValue id value
  return id

/-- What a text written in a scope stands for. -/
def evaluate (id : ScopeId) (text : String) : ScopeM Value :=
  resolving fun forest => Resolve.evaluate (Resolve.fromScope forest id) text

/-- What a value written in a scope stands for. -/
def resolve (id : ScopeId) (value : Value) : ScopeM Value :=
  resolving fun forest => Resolve.value (Resolve.fromScope forest id) value

/-- What the value of a scope stands for. -/
def resolveAt (id : ScopeId) : ScopeM Value :=
  resolving fun forest => Resolve.scopeValue forest id (forest.displayName id)

/-- Writes a value to the scope that a text names, which has to be one reference to a value,
and to the property it is bound to. -/
def write (id : ScopeId) (text : String) (value : Value) : ScopeM Unit := do
  match Template.singleReference? text with
  | none => throw (.notSingleReference text)
  | some path =>
    let forest := (← get).forest
    match forest.lookup? id path with
    | none => throw (.unresolvedReference (joinPath path))
    | some (target, consumed) =>
      match forest.content? target with
      | none => throw (.notAValue (joinPath path))
      | some entry =>
        if consumed ≠ path.length then throw (.notAValue (joinPath path))
        else do
          setValue target value
          match entry.binding? with
          | some binding => modify fun tree => tree.writeSource binding value
          | none => pure ()

end ScopeTree

end Pipework
