import Pipework.Json.Basic

/-!
# Writing JSON

JSON is written in two layouts. The compact one puts its tokens side by side without any
blanks. The pretty one gives every item and every field a line of its own, two blanks
deeper than what it stands in, and leaves brackets without content closed. In text only
quotes, backslashes and control characters are escaped, by a letter where there is one.
-/

namespace Pipework.Json

/-- The letter that stands for a character behind a backslash, if it has one. -/
def shortEscape? : Char → Option Char
  | '"' => some '"'
  | '\\' => some '\\'
  | '\x08' => some 'b'
  | '\x0c' => some 'f'
  | '\n' => some 'n'
  | '\r' => some 'r'
  | '\t' => some 't'
  | _ => none

/-- A character as it is written between quotes. -/
def escape (c : Char) : List Char :=
  match shortEscape? c with
  | some letter => ['\\', letter]
  | none =>
    if c.toNat < 32 then
      ['\\', 'u', '0', '0', Nat.digitChar (c.toNat / 16), Nat.digitChar (c.toNat % 16)]
    else [c]

/-- Text between quotes. -/
def quoted (s : String) : List Char := '"' :: (s.toList.flatMap escape ++ ['"'])

/-- The characters of a token. -/
def Token.chars : Token → List Char
  | .openArray => ['[']
  | .closeArray => [']']
  | .openObject => ['{']
  | .closeObject => ['}']
  | .comma => [',']
  | .colon => [':']
  | .null => ['n', 'u', 'l', 'l']
  | .bool true => ['t', 'r', 'u', 'e']
  | .bool false => ['f', 'a', 'l', 's', 'e']
  | .number literal => literal.toList
  | .str s => quoted s

/-- The text of data without any blanks. -/
def compact (json : Json) : String := String.ofList (json.tokens.flatMap Token.chars)

/-- The text of a single token. -/
def Token.text (token : Token) : String := String.ofList token.chars

/-- A line break, and the blanks at the beginning of a line of this depth. -/
def lineBreak (depth : Nat) : String := "\n" ++ String.ofList (List.replicate (2 * depth) ' ')

/-- Pieces on lines of their own between brackets, which stay together without any piece. -/
def block (depth : Nat) (opening closing : String) (pieces : List String) : String :=
  if pieces.isEmpty then opening ++ closing
  else
    let separator := "," ++ lineBreak (depth + 1)
    opening ++ lineBreak (depth + 1) ++ separator.intercalate pieces ++ lineBreak depth ++ closing

mutual

/-- The text of data in lines, at a place of this depth. -/
def prettyAt (depth : Nat) : Json → String
  | .arr items => block depth "[" "]" (prettyItems (depth + 1) items)
  | .obj fields => block depth "\x7b" "\x7d" (prettyFields (depth + 1) fields)
  | scalar => scalar.compact

/-- The text of each item of a list. -/
def prettyItems (depth : Nat) : List Json → List String
  | [] => []
  | item :: items => item.prettyAt depth :: prettyItems depth items

/-- The text of each field of an object. -/
def prettyFields (depth : Nat) : List (String × Json) → List String
  | [] => []
  | (key, json) :: fields =>
    ((Token.str key).text ++ ": " ++ json.prettyAt depth) :: prettyFields depth fields

end

/-- The text of data in lines. -/
def pretty (json : Json) : String := json.prettyAt 0

/-- The two layouts of one object. -/
example : [compact, pretty].map (· (.obj [("a", .arr [.int 1, .arr []])])) =
    ["\x7b\"a\":[1,[]]\x7d", "\x7b\n  \"a\": [\n    1,\n    []\n  ]\n\x7d"] := by decide +kernel

/-- Control characters are escaped, and all that is not ASCII stays as it is. -/
example : compact (.str "é\n\x01\"") = "\"é\\n\\u0001\\\"\"" := by decide +kernel

end Pipework.Json
