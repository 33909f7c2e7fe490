import Pipework.Binary64.Text
import Pipework.Template

/-!
# Configuration values

A value is a truth value, an integer of 64 bits, a floating-point number, text, or a list
of values to any depth. What is not a list is a scalar, and where a list is wanted a
scalar counts as a list of one. Two notions of equality are kept apart: `=` compares
values as they are stored, and `sameScalar` compares what two scalars stand for, where a
float that is no number equals nothing and the two zeros are equal.
-/

namespace Pipework

/-- A value that a job, a parameter or a scope may hold. -/
inductive Value where
  /-- A truth value. -/
  | bool (b : Bool)
  /-- An integer of 64 bits. -/
  | int (n : Int64)
  /-- A floating-point number. -/
  | float (x : Binary64)
  /-- Text, which may hold references. -/
  | str (s : String)
  /-- A list of values. -/
  | list (items : List Value)
  deriving Repr, Inhabited

namespace Value

mutual

/-- Whether two values are stored alike. -/
def isSame : Value → Value → Bool
  | .bool a, .bool b => a == b
  | .int a, .int b => a == b
  | .float a, .float b => a == b
  | .str a, .str b => a == b
  | .list a, .list b => areSame a b
  | _, _ => false

/-- Whether two lists hold values that are stored alike, place by place. -/
def areSame : List Value → List Value → Bool
  | [], [] => true
  | a :: as, b :: bs => isSame a b && areSame as bs
  | _, _ => false

end

mutual

theorem eq_of_isSame : ∀ {a b : Value}, isSame a b = true → a = b
  | .bool _, .bool _, h | .int _, .int _, h | .float _, .float _, h | .str _, .str _, h => by
    simpa [isSame] using h
  | .list as, .list bs, h => by
    simpa using eq_of_areSame (by simpa [isSame] using h : areSame as bs = true)
  | .bool _, .int _, h | .bool _, .float _, h | .bool _, .str _, h | .bool _, .list _, h
  | .int _, .bool _, h | .int _, .float _, h | .int _, .str _, h | .int _, .list _, h
  | .float _, .bool _, h | .float _, .int _, h | .float _, .str _, h | .float _, .list _, h
  | .str _, .bool _, h | .str _, .int _, h | .str _, .float _, h | .str _, .list _, h
  | .list _, .bool _, h | .list _, .int _, h | .list _, .float _, h | .list _, .str _, h => by
    simp [isSame] at h

theorem eq_of_areSame : ∀ {as bs : List Value}, areSame as bs = true → as = bs
  | [], [], _ => rfl
  | a :: as, b :: bs, h => by
    simp only [areSame, Bool.and_eq_true] at h
    rw [eq_of_isSame h.1, eq_of_areSame h.2]
  | [], _ :: _, h | _ :: _, [], h => by simp [areSame] at h

end

mutual

theorem isSame_self : ∀ a : Value, isSame a a = true
  | .bool _ | .int _ | .float _ | .str _ => by simp [isSame]
  | .list as => by simpa [isSame] using areSame_self as

theorem areSame_self : ∀ as : List Value, areSame as as = true
  | [] => rfl
  | a :: as => by simp [areSame, isSame_self a, areSame_self as]

end

instance : DecidableEq Value := fun a b =>
  decidable_of_iff (isSame a b = true) ⟨eq_of_isSame, fun h => h ▸ isSame_self a⟩

/-- Whether the value is a list. -/
def isList : Value → Bool
  | .list _ => true
  | _ => false

/-- Whether the value is a list without elements. Empty text is no such list. -/
def isEmptyList : Value → Bool
  | .list [] => true
  | _ => false

/-- The text of the value, if it is text. -/
def text? : Value → Option String
  | .str s => some s
  | _ => none

/-- The elements of the value, a scalar counting as a list of one. -/
def toList : Value → List Value
  | .list items => items
  | scalar => [scalar]

/-- The element at this place, a scalar counting as a list of one. -/
def element? (v : Value) (place : Nat) : Option Value := v.toList[place]?

mutual

/-- The text that stands for the value inside other text: the items of a list are parted by
blanks, and inner lists run into their surroundings. -/
def render : Value → String
  | .bool b => if b then "true" else "false"
  | .int n => toString n.toInt
  | .float x => x.render .inText
  | .str s => s
  | .list items => " ".intercalate (renderAll items)

/-- The texts that stand for values. -/
def renderAll : List Value → List String
  | [] => []
  | item :: items => item.render :: renderAll items

end

mutual

/-- Whether some text in the value holds the opening of a reference. -/
def mayRefer : Value → Bool
  | .str s => Template.mayRefer s
  | .list items => anyMayRefer items
  | _ => false

/-- Whether one of the values holds the opening of a reference. -/
def anyMayRefer : List Value → Bool
  | [] => false
  | item :: items => item.mayRefer || anyMayRefer items

end

mutual

/-- All references in the text of the value, depth first. -/
def references : Value → List (List String)
  | .str s => Template.references s
  | .list items => allReferences items
  | _ => []

/-- All references in the text of the values, depth first. -/
def allReferences : List Value → List (List String)
  | [] => []
  | item :: items => item.references ++ allReferences items

end

mutual

/-- The scalars of the value, depth first. -/
def leaves : Value → List Value
  | .list items => allLeaves items
  | scalar => [scalar]

/-- The scalars of the values, depth first. -/
def allLeaves : List Value → List Value
  | [] => []
  | item :: items => item.leaves ++ allLeaves items

end

mutual

/-- Puts something in the place of each scalar, keeping all lists, or fails as soon as that
fails for one of them. -/
def mapLeavesM {ε : Type} (f : Value → Except ε Value) : Value → Except ε Value
  | .list items => do return .list (← mapAllLeavesM f items)
  | scalar => f scalar

/-- Does the same to each of several values, from left to right. -/
def mapAllLeavesM {ε : Type} (f : Value → Except ε Value) : List Value → Except ε (List Value)
  | [] => return []
  | item :: items => do
    let first ← mapLeavesM f item
    let others ← mapAllLeavesM f items
    return first :: others

end

mutual

/-- Puts something in the place of each scalar, keeping all lists. -/
def mapLeaves (f : Value → Value) : Value → Value
  | .list items => .list (mapAllLeaves f items)
  | scalar => f scalar

/-- Does the same to each of several values. -/
def mapAllLeaves (f : Value → Value) : List Value → List Value
  | [] => []
  | item :: items => mapLeaves f item :: mapAllLeaves f items

end

/-- Whether two scalars stand for the same. Floats are compared as numbers, and scalars of
different kinds are never the same. -/
def sameScalar : Value → Value → Bool
  | .float x, .float y => x.same y
  | a, b => decide (a = b)

/-- Adds a scalar behind the others, unless one of them stands for the same. -/
def addUnique (seen : List Value) (scalar : Value) : List Value :=
  if seen.any (sameScalar · scalar) then seen else seen ++ [scalar]

/-- The scalars of all values, depth first and each only where it comes up first. -/
def flattenUnique (values : List Value) : List Value := (allLeaves values).foldl addUnique []

/-- An integer is never the same as a float, and a repeated number is dropped at any depth. -/
example : flattenUnique [.list [.int 1, .list [.float ⟨0⟩]], .float ⟨0⟩, .int 1] =
    [.int 1, .float ⟨0⟩] := by decide

end Value

end Pipework
