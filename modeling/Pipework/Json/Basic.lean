import Pipework.Binary64.Text

/-!
# JSON

JSON data as a tree, and the tokens it is written with. Objects keep their fields in the
order they were written in, also fields of one key. Integers have no bounds and are kept
apart from numbers with a fraction or an exponent. A number that was read from text is kept
as it was written, because what it stands for depends on what is wanted in its place.
Writing goes from the tree to its tokens and from the tokens to characters.
-/

namespace Pipework

/-- JSON data. -/
inductive Json where
  /-- The word for nothing. -/
  | null
  /-- A truth value. -/
  | bool (b : Bool)
  /-- A number without fraction and exponent. -/
  | int (n : Int)
  /-- A number with a fraction or an exponent. -/
  | float (x : Binary64)
  /-- A number as it is written. -/
  | number (literal : String)
  /-- Text. -/
  | str (s : String)
  /-- A list. -/
  | arr (items : List Json)
  /-- Data under keys. -/
  | obj (fields : List (String × Json))
  deriving Repr, Inhabited

namespace Json

/-- The least integer that JSON data keeps as an integer. -/
def leastInteger : Int := Int64.minValue.toInt

/-- The greatest integer that JSON data keeps as an integer. -/
def greatestInteger : Int := (UInt64.size : Int) - 1

/-- An integer, or the nearest number with a fraction if the integer is too large. -/
def ofInteger (n : Int) : Json :=
  if leastInteger ≤ n ∧ n ≤ greatestInteger then .int n else .float (Binary64.ofInt n)

/-- A unit of written JSON. -/
inductive Token where
  /-- The opening bracket of a list. -/
  | openArray
  /-- The closing bracket of a list. -/
  | closeArray
  /-- The opening brace of an object. -/
  | openObject
  /-- The closing brace of an object. -/
  | closeObject
  /-- What parts items and fields. -/
  | comma
  /-- What parts a key from its data. -/
  | colon
  /-- The word for nothing. -/
  | null
  /-- A truth value. -/
  | bool (b : Bool)
  /-- A number as it is written. -/
  | number (literal : String)
  /-- Text. -/
  | str (s : String)
  deriving DecidableEq, Repr

/-- The token of an integer. -/
def Token.ofInt (n : Int) : Token := .number (toString n)

/-- The token of a number. What is not finite cannot be written, and gives way to the word for
nothing. -/
def Token.ofFloat (x : Binary64) : Token := if x.isFinite then .number (x.render .inJson) else .null

mutual

/-- The tokens that data is written with. -/
def tokens : Json → List Token
  | .null => [.null]
  | .bool b => [.bool b]
  | .int n => [.ofInt n]
  | .float x => [.ofFloat x]
  | .number literal => [.number literal]
  | .str s => [.str s]
  | .arr items => .openArray :: ([.comma].intercalate (itemTokens items) ++ [.closeArray])
  | .obj fields => .openObject :: ([.comma].intercalate (fieldTokens fields) ++ [.closeObject])

/-- The tokens of each item of a list. -/
def itemTokens : List Json → List (List Token)
  | [] => []
  | item :: items => item.tokens :: itemTokens items

/-- The tokens of each field of an object. -/
def fieldTokens : List (String × Json) → List (List Token)
  | [] => []
  | (key, json) :: fields => (.str key :: .colon :: json.tokens) :: fieldTokens fields

end

/-- A list of two items, one of them an object. -/
example : tokens (.arr [.int 1, .obj [("a", .null)]]) = [.openArray, .number "1", .comma,
    .openObject, .str "a", .colon, .null, .closeObject, .closeArray] := by decide +kernel

end Json

end Pipework
