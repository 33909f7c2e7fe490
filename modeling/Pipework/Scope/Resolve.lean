import Pipework.Scope.FileField
import Pipework.Scope.Lookup

/-!
# Resolving references

Resolving a value replaces its references by what they stand for. A text that is one
reference becomes the value referred to, of whatever kind; any other text with references
becomes text again, or a list of texts, one for each element, when lists are among the
values. The value of a scope is resolved where the scope lies, and what came out is
remembered, also when something else fails later on. Going round in a circle is noticed
because the scopes being resolved are known; since those are different scopes, their
number bounds the depth of the recursion.
-/

namespace Pipework

/-- What the values of scopes were found to resolve to. -/
abbrev Memo := List (ScopeId × Value)

/-- A resolution, which remembers results and may fail without forgetting them. -/
abbrev ResolveM := EStateM ScopeError Memo

/-- A result that nothing has to be remembered for. -/
def ResolveM.ofExcept {α : Type} : Except ScopeError α → ResolveM α
  | .ok a => pure a
  | .error e => throw e

namespace Resolve

/-- The number of elements of a list. -/
def width? : Value → Option Nat
  | .list items => some items.length
  | _ => none

/-- The width that one more value leaves a template with. All lists have to be equally long. -/
def widen (template : String) (width : Option Nat) (part : Value) :
    Except ScopeError (Option Nat) :=
  match width, width? part with
  | some left, some right =>
    if left = right then .ok width else .error (.broadcastMismatch template left right)
  | none, some right => .ok (some right)
  | _, none => .ok width

/-- The values of the tokens of a template from left to right, with the width of the lists
among them. -/
def gather (deref : List String → ResolveM Value) (template : String) :
    Option Nat → List Token → ResolveM (List Value × Option Nat)
  | width, [] => return ([], width)
  | width, .literal text :: tokens => do
    let (parts, width) ← gather deref template width tokens
    return (.str text :: parts, width)
  | width, .reference path :: tokens => do
    let part ← deref path
    let width ← ResolveM.ofExcept (widen template width part)
    let (parts, width) ← gather deref template width tokens
    return (part :: parts, width)

/-- What a part of a template adds to the text at one place of the lists. -/
def partAt (place : Nat) : Value → Except ScopeError String
  | .list items => match items[place]? with
    | some item => .ok item.render
    | none => .error .dangling
  | scalar => .ok scalar.render

/-- The text of a template at one place of the lists. -/
def lineAt (parts : List Value) (place : Nat) : Except ScopeError Value := do
  return .str (String.join (← parts.mapM (partAt place)))

/-- Puts the values of a template together: to one text, or to one for each place of the lists
among them. -/
def assemble (parts : List Value) : Option Nat → Except ScopeError Value
  | none => .ok (.str (String.join (parts.map Value.render)))
  | some width => do return .list (← (List.range width).mapM (lineAt parts))

/-- Evaluates a template, with references standing for what `deref` gives. -/
def evaluate (deref : List String → ResolveM Value) (template : String) : ResolveM Value :=
  match Template.tokenize template with
  | [.reference path] => deref path
  | tokens => do
    let (parts, width) ← gather deref template none tokens
    ResolveM.ofExcept (assemble parts width)

/-- What an element of a list becomes in it: where something that was no list resolves to one,
its elements take its place. -/
def splice (item resolved : Value) : List Value :=
  match resolved with
  | .list inner => if item.isList then [resolved] else inner
  | _ => [resolved]

mutual

/-- Resolves all references in a value. -/
def value (deref : List String → ResolveM Value) : Value → ResolveM Value
  | .str text => if Template.mayRefer text then evaluate deref text else return .str text
  | .list items => do return .list (← values deref items)
  | other => return other

/-- Resolves the elements of a list, from left to right. -/
def values (deref : List String → ResolveM Value) : List Value → ResolveM (List Value)
  | [] => return []
  | item :: items => do
    let resolved ← value deref item
    let others ← values deref items
    return splice item resolved ++ others

end

/-- Follows a reference from a scope, with `scopeValue` giving the values of scopes, and takes
the parts of the value that the reference asks for. -/
def follow (f : Forest) (start : ScopeId) (scopeValue : ScopeId → String → ResolveM Value)
    (path : List String) : ResolveM Value := do
  let reference := joinPath path
  match f.lookup? start path with
  | none => throw (.unresolvedReference reference)
  | some (id, consumed) =>
    let resolved ← scopeValue id reference
    ResolveM.ofExcept (FileField.derive resolved (path.drop consumed) reference)

/-- Resolves the value of a scope, while the values of other scopes are being resolved because
of it. The recursion goes deeper only with one more scope being visited. -/
def scopeValueWithin (f : Forest) : Nat → List ScopeId → ScopeId → String → ResolveM Value
  | depth, visiting, id, reference => do
    match f.raw? id with
    | none => throw (.notAValue reference)
    | some raw =>
      match (← get).lookup id with
      | some resolved => return resolved
      | none =>
        if id ∈ visiting then throw (.selfReference reference)
        else match depth with
          | 0 => throw .dangling
          | depth + 1 => do
            let start := (f.parent? id).getD id
            let resolved ← value
              (follow f start (scopeValueWithin f depth (id :: visiting))) raw
            modify ((id, resolved) :: ·)
            return resolved

/-- Resolves the value of a scope, which is called by a reference in words. -/
def scopeValue (f : Forest) (id : ScopeId) (reference : String) : ResolveM Value :=
  scopeValueWithin f f.size [] id reference

/-- What references stand for that are written in a scope. -/
def fromScope (f : Forest) (start : ScopeId) : List String → ResolveM Value :=
  follow f start (scopeValue f)

end Resolve

end Pipework
