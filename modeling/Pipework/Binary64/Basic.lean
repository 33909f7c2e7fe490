/-!
# Binary floating-point words

A `Binary64` is the 64-bit word of a floating-point number: one sign bit, eleven
exponent bits and fifty-two fraction bits. The fields are read off by division and
remainder, so every question about a number is a question about naturals. Reading
and writing decimal text are separate modules.
-/

namespace Pipework

/-- A floating-point number, kept as its 64-bit word. -/
structure Binary64 where
  /-- Sign, exponent and fraction bits, from the top. -/
  bits : UInt64
  deriving DecidableEq, Repr

namespace Binary64

/-- The place value of the sign bit. -/
def signUnit : Nat := 0x8000000000000000

/-- The place value of the lowest exponent bit, which is how many fractions there are. -/
def exponentUnit : Nat := 0x10000000000000

/-- The exponent field of an infinity or of a number that is no number. -/
def exponentLimit : Nat := 2047

/-- Whether the sign bit is set. -/
def isNegative (x : Binary64) : Bool := decide (signUnit ≤ x.bits.toNat)

/-- The eleven exponent bits. -/
def exponentField (x : Binary64) : Nat := x.bits.toNat / exponentUnit % (exponentLimit + 1)

/-- The fifty-two fraction bits. -/
def fractionField (x : Binary64) : Nat := x.bits.toNat % exponentUnit

/-- Whether the word stands for no number. -/
def isNaN (x : Binary64) : Bool := x.exponentField == exponentLimit && x.fractionField != 0

/-- Whether the word stands for a number that is neither infinite nor absent. -/
def isFinite (x : Binary64) : Bool := x.exponentField != exponentLimit

/-- The whole number `m` of a finite value `m * 2 ^ q`, with `q` the `scale`. -/
def significand (x : Binary64) : Nat :=
  if x.exponentField = 0 then x.fractionField else exponentUnit + x.fractionField

/-- The power `q` of a finite value `m * 2 ^ q`, with `m` the `significand`. -/
def scale (x : Binary64) : Int :=
  if x.exponentField = 0 then -1074 else (x.exponentField : Int) - 1075

/-- Whether the word is one of the two zeros. -/
def isZero (x : Binary64) : Bool := x.bits.toNat % signUnit == 0

/-- Numerical equality: the two zeros are equal, and what is no number equals nothing,
not even itself. -/
def same (x y : Binary64) : Bool :=
  !x.isNaN && !y.isNaN && (x.bits == y.bits || (x.isZero && y.isZero))

/-- The word with this sign whose remaining bits are `magnitude`. -/
def ofMagnitude (negative : Bool) (magnitude : Nat) : Binary64 :=
  ⟨UInt64.ofNat ((if negative then signUnit else 0) + magnitude)⟩

/-- The infinity of this sign. -/
def infinity (negative : Bool) : Binary64 := ofMagnitude negative (exponentLimit * exponentUnit)

/-- The word for no number, quiet and with this sign. -/
def nan (negative : Bool) : Binary64 :=
  ofMagnitude negative (exponentLimit * exponentUnit + exponentUnit / 2)

end Binary64

end Pipework
