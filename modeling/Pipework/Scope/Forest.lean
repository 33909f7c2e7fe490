import Pipework.Value.Basic

/-!
# Forests of named scopes

A scope has a name, a parent unless it is a root, and either children or a value. Scopes
are kept in the order of their creation and addressed by their place in it, and they stay
there when they are detached from their parent. A parent is therefore always older than
its children, and going up from a scope ends after at most as many steps as its handle
says. Nothing in this module resolves references.
-/

namespace Pipework

/-- The handle of a scope: how many scopes were there before it. -/
abbrev ScopeId := Nat

/-- The property of an outside object that a scope's value stands for. -/
structure Binding where
  /-- The object. -/
  source : String
  /-- The property. -/
  property : String
  deriving DecidableEq, Repr

/-- What a scope holds when it holds a value. -/
structure Entry where
  /-- The value as it was stored, with its references. -/
  raw : Value
  /-- Where later writes go as well. -/
  binding? : Option Binding
  deriving DecidableEq, Repr

/-- A named scope. -/
structure Scope where
  /-- The name, empty for a root. -/
  name : String
  /-- The scope around it. -/
  parent? : Option ScopeId
  /-- The scopes in it, oldest first. -/
  children : List ScopeId
  /-- Its value. -/
  content? : Option Entry
  deriving DecidableEq, Repr

/-- Scopes in the order of their creation. -/
structure Forest where
  /-- The scopes, each at the place that its handle says. -/
  scopes : List Scope
  deriving DecidableEq, Repr

namespace Forest

/-- The scope that everything starts from. -/
def root : ScopeId := 0

/-- A root without children. -/
def initial : Forest := ⟨[⟨"", none, [], none⟩]⟩

/-- The number of scopes there ever were, which is the next handle. -/
def size (f : Forest) : Nat := f.scopes.length

/-- The scope with this handle. -/
def get? (f : Forest) (id : ScopeId) : Option Scope := f.scopes[id]?

/-- The name of a scope. -/
def name? (f : Forest) (id : ScopeId) : Option String := (f.get? id).map (·.name)

/-- The scope around a scope. -/
def parent? (f : Forest) (id : ScopeId) : Option ScopeId := (f.get? id).bind (·.parent?)

/-- The scopes in a scope, oldest first. -/
def children (f : Forest) (id : ScopeId) : List ScopeId :=
  ((f.get? id).map (·.children)).getD []

/-- What a scope holds as its value. -/
def content? (f : Forest) (id : ScopeId) : Option Entry := (f.get? id).bind (·.content?)

/-- The value of a scope as it was stored. -/
def raw? (f : Forest) (id : ScopeId) : Option Value := (f.content? id).map (·.raw)

/-- The scope of this name in a scope. -/
def child? (f : Forest) (parent : ScopeId) (name : String) : Option ScopeId :=
  (f.children parent).find? fun id => f.name? id == some name

/-- The scope itself, the one around it, and so on outwards, for at most so many steps. -/
def chainWithin (f : Forest) : Nat → ScopeId → List ScopeId
  | 0, id => [id]
  | steps + 1, id =>
    match f.parent? id with
    | some parent => id :: f.chainWithin steps parent
    | none => [id]

/-- The scope itself, the one around it, and so on up to a root. -/
def chain (f : Forest) (id : ScopeId) : List ScopeId := f.chainWithin id id

/-- The names on the way from a root to a scope. A root itself adds none. -/
def pathOf (f : Forest) (id : ScopeId) : List String :=
  ((f.chain id).filter fun i => (f.parent? i).isSome).reverse.filterMap f.name?

/-- A scope as it is named in words. -/
def displayName (f : Forest) (id : ScopeId) : String :=
  match f.pathOf id with
  | [] => "<root>"
  | path => ".".intercalate path

/-- Changes one scope. -/
def modify (f : Forest) (id : ScopeId) (change : Scope → Scope) : Forest :=
  ⟨f.scopes.modify id change⟩

/-- Adds a scope without value or children to another one. -/
def addChild (f : Forest) (parent : ScopeId) (name : String) : Forest :=
  let extended : Forest := ⟨f.scopes ++ [⟨name, some parent, [], none⟩]⟩
  extended.modify parent fun scope => { scope with children := scope.children ++ [f.size] }

/-- Takes a scope out of the one around it. It and all within it stay there for themselves. -/
def detach (f : Forest) (parent id : ScopeId) : Forest :=
  let shortened := f.modify parent fun scope =>
    { scope with children := scope.children.filter (· ≠ id) }
  shortened.modify id fun scope => { scope with parent? := none }

/-- Gives a scope a value, in the place of the one it had. -/
def setEntry (f : Forest) (id : ScopeId) (entry : Entry) : Forest :=
  f.modify id fun scope => { scope with content? := some entry }

end Forest

end Pipework
