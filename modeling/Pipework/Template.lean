/-!
# Templates

A template is text with references in it. A reference is a dollar sign and, in braces,
one or more segments joined by dots; a segment holds letters, digits, underscores and
hyphens. Everything else is literal text, also a brace or a dollar sign that belongs to no
complete reference. Scanning goes from left to right and takes the first reference it
meets, so references never overlap.
-/

namespace Pipework

/-- A piece of a template. -/
inductive Token where
  /-- Text that stands for itself. -/
  | literal (text : String)
  /-- The segments of a reference. -/
  | reference (path : List String)
  deriving DecidableEq, Repr

/-- The segments of a reference, if the token is one. -/
def Token.path? : Token → Option (List String)
  | .reference path => some path
  | .literal _ => none

/-- The segments of a reference as they are written between the braces. -/
def joinPath (path : List String) : String := ".".intercalate path

/-- A reference as it is written in a template. -/
def formatReference (path : List String) : String := "$\x7b" ++ joinPath path ++ "\x7d"

/-- A token as it is written in a template. -/
def Token.text : Token → String
  | .literal text => text
  | .reference path => formatReference path

namespace Template

/-- Letters, digits, underscores and hyphens make up segments. Only plain letters and digits
count, none with accents. -/
def isSegmentChar (c : Char) : Bool := c.isAlphanum || c == '_' || c == '-'

/-- The characters between the braces of a reference. -/
def isPathChar (c : Char) : Bool := isSegmentChar c || c == '.'

/-- What is found at one place of the text. -/
inductive Piece where
  /-- A character that stands for itself. -/
  | char (c : Char)
  /-- A complete reference. -/
  | reference (path : List String)
  deriving DecidableEq, Repr

/-- Reads the rest of a reference behind its dollar sign: its segments, and how many
characters it takes. The path ends at the first character that cannot belong to it, which
has to be the closing brace. -/
def referenceAfterDollar? : List Char → Option (List String × Nat)
  | '{' :: rest =>
    let body := rest.takeWhile isPathChar
    let segments := body.splitOn '.'
    if (rest.dropWhile isPathChar).head? = some '}' ∧ segments.all (· ≠ []) then
      some (segments.map String.ofList, body.length + 2)
    else none
  | _ => none

/-- What is found at each place of the text, the first `skip` characters aside. -/
def pieces : Nat → List Char → List Piece
  | _, [] => []
  | skip + 1, _ :: rest => pieces skip rest
  | 0, c :: rest =>
    match if c = '$' then referenceAfterDollar? rest else none with
    | some (path, width) => .reference path :: pieces width rest
    | none => .char c :: pieces 0 rest

/-- Puts a character in front of tokens, into the literal they begin with if they do. -/
def pushChar (c : Char) : List Token → List Token
  | .literal text :: tokens => .literal (String.singleton c ++ text) :: tokens
  | tokens => .literal (String.singleton c) :: tokens

/-- Joins neighbouring characters to literals. -/
def joinPieces : List Piece → List Token
  | [] => []
  | .char c :: rest => pushChar c (joinPieces rest)
  | .reference path :: rest => .reference path :: joinPieces rest

/-- The literals and references of a template, in order. -/
def tokenize (text : String) : List Token := joinPieces (pieces 0 text.toList)

/-- The template that consists of these tokens. -/
def textOf (tokens : List Token) : String := String.join (tokens.map Token.text)

/-- All references of a template, in order. -/
def references (text : String) : List (List String) := (tokenize text).filterMap Token.path?

/-- The reference that a template consists of, if it is nothing else. -/
def singleReference? (text : String) : Option (List String) :=
  match tokenize text with
  | [.reference path] => some path
  | _ => none

/-- Whether a dollar sign is followed by an opening brace anywhere. -/
def hasOpening : List Char → Bool
  | '$' :: '{' :: _ => true
  | _ :: rest => hasOpening rest
  | [] => false

/-- Whether the text holds the opening of a reference, complete or not. -/
def mayRefer (text : String) : Bool := hasOpening text.toList

/-- An opening that leads to no reference stays literal, and the scan goes on behind it. -/
example : tokenize "a$\x7b$\x7bA.out\x7d" = [.literal "a$\x7b", .reference ["A", "out"]] := by
  decide

end Template

end Pipework
