import Pipework.Scope.Forest

/-!
# Finding the scope that a reference names

The first segment of a reference is looked for near the scope that it stands in: among
its children; then, going outwards, each scope counts that has the name itself or has a
child of the name; then, going outwards again, everything within the scopes around it,
level by level. From the scope so found the other segments lead down child by child, up to
a value, which leaves the rest of them to be parts of that value.
-/

namespace Pipework.Forest

/-- The first scope of this name among some scopes, those in them, and so on inwards, for at
most so many levels. -/
def findWithin (f : Forest) (name : String) : Nat → List ScopeId → Option ScopeId
  | 0, _ => none
  | levels + 1, scopes =>
    (scopes.find? fun id => f.name? id == some name).or
      (f.findWithin name levels (scopes.flatMap f.children))

/-- The first scope of this name inside a scope, level by level, itself not included. There
are no more levels than scopes. -/
def findBelow? (f : Forest) (start : ScopeId) (name : String) : Option ScopeId :=
  f.findWithin name f.size (f.children start)

/-- The scope itself if it is inside another one and has the name, else its child of that
name. -/
def findAt? (f : Forest) (name : String) (id : ScopeId) : Option ScopeId :=
  if (f.parent? id).isSome && f.name? id == some name then some id else f.child? id name

/-- The scope that the first segment of a reference names, seen from a scope. -/
def anchor? (f : Forest) (start : ScopeId) (name : String) : Option ScopeId :=
  ((f.child? start name).or
    ((f.chain start).findSome? (f.findAt? name))).or
      ((f.chain ((f.parent? start).getD start)).findSome? (f.findBelow? · name))

/-- Goes down child by child as far as the segments lead, and tells how many it took. A
segment that leads nowhere ends the way at a value, and fails anywhere else. -/
def descend? (f : Forest) : ScopeId → List String → Option (ScopeId × Nat)
  | id, [] => some (id, 0)
  | id, segment :: rest =>
    match f.child? id segment with
    | some next => (f.descend? next rest).map fun found => (found.1, found.2 + 1)
    | none => if (f.raw? id).isSome then some (id, 0) else none

/-- The scope that a reference names, seen from a scope, and how many segments led there. -/
def lookup? (f : Forest) (start : ScopeId) : List String → Option (ScopeId × Nat)
  | [] => none
  | first :: rest => do
    let anchor ← f.anchor? start first
    let found ← f.descend? anchor rest
    return (found.1, found.2 + 1)

end Pipework.Forest
