import Pipework.Binary64.Basic

/-!
# Rounding decimals to binary words

A decimal is read into the nearest word, half way going to the even one. Everything is
exact arithmetic on naturals: a ratio is scaled until its whole part has fifty-three
bits, rounded once, and the carry of that rounding runs into the exponent field by
itself. Decimals far outside the range are answered by their order of magnitude.
-/

namespace Pipework

/-- The decimal `digits * 10 ^ exponent`. -/
structure Decimal where
  /-- All digits, as one natural. -/
  digits : Nat
  /-- The power of ten that the last digit counts. -/
  exponent : Int
  deriving DecidableEq, Repr

namespace Decimal

/-- The numerator of the decimal as a ratio of naturals. -/
def numerator (d : Decimal) : Nat := d.digits * Nat.pow 10 d.exponent.toNat

/-- The denominator of the decimal as a ratio of naturals. -/
def denominator (d : Decimal) : Nat := Nat.pow 10 (-d.exponent).toNat

/-- The number of decimal digits, none for zero. -/
def length (d : Decimal) : Nat := if d.digits = 0 then 0 else (Nat.toDigits 10 d.digits).length

end Decimal

namespace Binary64

/-- The quotient rounded to the nearest natural, half way to the even one. -/
def nearestEven (num den : Nat) : Nat :=
  let quotient := num / den
  let rest := num % den
  if 2 * rest < den then quotient
  else if den < 2 * rest then quotient + 1
  else quotient + quotient % 2

/-- The greatest `k` with `2 ^ k` at most `num / den`, for positive `num` and `den`. -/
def floorLog2 (num den : Nat) : Int :=
  let guess : Int := (num.log2 : Int) - (den.log2 : Int)
  if den * Nat.pow 2 guess.toNat ≤ num * Nat.pow 2 (-guess).toNat then guess else guess - 1

/-- The exponent and fraction bits of the number nearest to `num / den`, with all that lies
beyond the greatest finite number going to infinity. -/
def magnitudeOfRatio (num den : Nat) : Nat :=
  if num = 0 then 0
  else
    let scale : Int := max (-1074) (floorLog2 num den - 52)
    let whole := nearestEven (num * Nat.pow 2 (-scale).toNat) (den * Nat.pow 2 scale.toNat)
    -- A subnormal has exponent field zero; any other one drops its leading bit, and a whole
    -- part rounded up to 2 ^ 53 thereby carries into the exponent.
    let word :=
      if whole < exponentUnit then whole else (scale + 1074).toNat * exponentUnit + whole
    min word (exponentLimit * exponentUnit)

/-- A decimal of this order of magnitude or above rounds to infinity. -/
def overflowOrder : Int := 310

/-- A decimal below this order of magnitude rounds to zero. -/
def underflowOrder : Int := -330

/-- The number nearest to a decimal of this sign. -/
def ofDecimal (negative : Bool) (d : Decimal) : Binary64 :=
  let order := (d.length : Int) + d.exponent
  if d.digits = 0 ∨ order ≤ underflowOrder then ofMagnitude negative 0
  else if overflowOrder < order then infinity negative
  else ofMagnitude negative (magnitudeOfRatio d.numerator d.denominator)

/-- The number nearest to an integer. -/
def ofInt (n : Int) : Binary64 := ofDecimal (decide (n < 0)) ⟨n.natAbs, 0⟩

/-- Halves go to the even neighbour, and what is just above half way goes up. -/
example : nearestEven 5 2 = 2 ∧ nearestEven 7 2 = 4 ∧ nearestEven 501 200 = 3 := by decide

end Binary64

end Pipework
