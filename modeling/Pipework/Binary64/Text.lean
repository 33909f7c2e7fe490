import Pipework.Binary64.Shortest

/-!
# Decimal text of numbers

Numbers are read from a generous grammar: an optional sign, then digits with a point
anywhere among them and an optional power of ten, or one of the words for infinity and
for no number. They are written in two styles. Inside text a number never takes an
exponent below `10 ^ 16`; as JSON it does for small magnitudes too, and shows the sign of
the exponent. Both keep a point or an exponent, so that a number is not taken for an integer.
-/

namespace Pipework

/-- The decisions that fix how a number is laid out. -/
structure NumberStyle where
  /-- The least power of ten of a leading digit that is still written without an exponent,
  if there is one. -/
  plainFrom : Option Int
  /-- From this power of ten of the leading digit on, an exponent is written. -/
  plainBelow : Int
  /-- Whether a positive exponent carries its sign. -/
  exponentPlus : Bool
  /-- Which of two equally near decimals is taken. -/
  tie : Tie
  /-- The text for no number. -/
  nan : String
  /-- The text for the positive infinity. -/
  infinity : String
  /-- The text for the negative infinity. -/
  negativeInfinity : String

namespace NumberStyle

/-- Numbers inside text: without an exponent below `10 ^ 16`, and with words for what is not
finite. -/
def inText : NumberStyle where
  plainFrom := none
  plainBelow := 16
  exponentPlus := false
  tie := .awayFromZero
  nan := "NaN"
  infinity := "inf"
  negativeInfinity := "-inf"

/-- Numbers in JSON, which has no way to write what is not finite. -/
def inJson : NumberStyle where
  plainFrom := some (-5)
  plainBelow := 16
  exponentPlus := true
  tie := .toEven
  nan := "null"
  infinity := "null"
  negativeInfinity := "null"

/-- Digits with the point at its place, and zeros where the digits do not reach it. -/
def plain (d : Decimal) : List Char :=
  let digits := Nat.toDigits 10 d.digits
  if 0 ≤ d.exponent then digits ++ List.replicate d.exponent.toNat '0' ++ ['.', '0']
  else
    let places := (-d.exponent).toNat
    if places < digits.length then
      digits.take (digits.length - places) ++ '.' :: digits.drop (digits.length - places)
    else '0' :: '.' :: (List.replicate (places - digits.length) '0' ++ digits)

/-- The leading digit, the others behind a point, and the power of ten of the leading one. -/
def scientific (style : NumberStyle) (d : Decimal) (order : Int) : List Char :=
  let mantissa := match Nat.toDigits 10 d.digits with
    | [] => []
    | [digit] => [digit]
    | digit :: rest => digit :: '.' :: rest
  let sign := if order < 0 then ['-'] else if style.exponentPlus then ['+'] else []
  mantissa ++ 'e' :: (sign ++ Nat.toDigits 10 order.natAbs)

/-- Whether a leading digit at this power of ten is written without an exponent. -/
def isPlain (style : NumberStyle) (order : Int) : Bool :=
  decide (order < style.plainBelow) && style.plainFrom.all fun least => decide (least ≤ order)

/-- The text of a decimal without its sign. -/
def layout (style : NumberStyle) (d : Decimal) : List Char :=
  let order := (Nat.toDigits 10 d.digits).length - 1 + d.exponent
  if style.isPlain order then plain d else style.scientific d order

end NumberStyle

namespace Decimal

/-- The natural that a run of digits stands for. -/
def ofDigits (digits : List Char) : Nat :=
  digits.foldl (fun value digit => 10 * value + (digit.toNat - '0'.toNat)) 0

/-- Splits off a sign, and tells whether it is a minus. -/
def splitSign : List Char → Bool × List Char
  | '-' :: rest => (true, rest)
  | '+' :: rest => (false, rest)
  | rest => (false, rest)

/-- Reads an integer: digits that may carry a sign. -/
def readInteger? (text : List Char) : Option Int :=
  let (negative, digits) := splitSign text
  if digits ≠ [] ∧ digits.all Char.isDigit then
    some (if negative then -(ofDigits digits : Int) else ofDigits digits)
  else none

/-- Reads a power of ten: nothing, or the letter with an integer. -/
def readExponent? : List Char → Option Int
  | [] => some 0
  | letter :: rest => if letter = 'e' ∨ letter = 'E' then readInteger? rest else none

/-- Reads digits with at most one point before, among or after them, and a power of ten. -/
def read? (text : List Char) : Option Decimal :=
  let whole := text.takeWhile Char.isDigit
  let afterWhole := text.dropWhile Char.isDigit
  let (fraction, afterFraction) := match afterWhole with
    | '.' :: rest => (rest.takeWhile Char.isDigit, rest.dropWhile Char.isDigit)
    | rest => ([], rest)
  if whole = [] ∧ fraction = [] then none
  else (readExponent? afterFraction).map fun power =>
    ⟨ofDigits (whole ++ fraction), power - fraction.length⟩

end Decimal

namespace Binary64

/-- Reads a number: a sign if any, then a decimal or a word, in whatever case. -/
def ofText? (text : String) : Option Binary64 :=
  let (negative, rest) := Decimal.splitSign text.toList
  let word := String.ofList (rest.map Char.toLower)
  if word = "inf" ∨ word = "infinity" then some (infinity negative)
  else if word = "nan" then some (nan negative)
  else (Decimal.read? rest).map (ofDecimal negative)

/-- The text of a number in the given style. -/
def render (style : NumberStyle) (x : Binary64) : String :=
  if x.isNaN then style.nan
  else if !x.isFinite then if x.isNegative then style.negativeInfinity else style.infinity
  else
    let magnitude := style.layout (x.shortest style.tie)
    String.ofList (if x.isNegative then '-' :: magnitude else magnitude)

/-- The two styles part at exponents and at what is not finite. -/
example : ((ofText? "1e16").map (render .inText), (ofText? "1e16").map (render .inJson),
    (ofText? "-1e-7").map (render .inText), (ofText? "-1e-7").map (render .inJson)) =
    (some "1e16", some "1e+16", some "-0.0000001", some "-1e-7") := by decide +kernel

end Binary64

end Pipework
