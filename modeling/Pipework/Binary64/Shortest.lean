import Pipework.Binary64.Rounding

/-!
# The fewest digits that read back

A number is written with as few digits as still read back to it, and of those with the
digits nearest to it. The numbers that read back form an interval around it, whose ends
lie half way to its neighbours and belong to it when its significand is even. For one
digit, two digits and so on, the two points of that decimal grid next to the number are
tried; the first grid with a point in the interval wins. All comparisons are exact.
-/

namespace Pipework

/-- Which of two equally near decimals is taken. -/
inductive Tie where
  /-- The one whose last digit is even. -/
  | toEven
  /-- The one farther from zero. -/
  | awayFromZero
  deriving DecidableEq, Repr

namespace Binary64

/-- How `a * 10 ^ i` compares with `m * 2 ^ j`. -/
def compareScaled (a : Nat) (i : Int) (m : Nat) (j : Int) : Ordering :=
  compare (a * Nat.pow 10 i.toNat * Nat.pow 2 (-j).toNat)
    (m * Nat.pow 2 j.toNat * Nat.pow 10 (-i).toNat)

/-- Whether the neighbour below is only half as far away as the one above: the number is
a power of two, and not the least one with a full significand. -/
def narrowBelow (x : Binary64) : Bool := x.fractionField == 0 && decide (1 < x.exponentField)

/-- Whether the decimal lies among the numbers that round to the magnitude of `x`. -/
def readsBack (x : Binary64) (d : Decimal) : Bool :=
  let low := if x.narrowBelow then 4 * x.significand - 1 else 4 * x.significand - 2
  let high := 4 * x.significand + 2
  let closed := x.significand % 2 == 0
  let atLow := compareScaled d.digits d.exponent low (x.scale - 2)
  let atHigh := compareScaled d.digits d.exponent high (x.scale - 2)
  (atLow == .gt || (closed && atLow == .eq)) && (atHigh == .lt || (closed && atHigh == .eq))

/-- The least `k` with the magnitude of `x` below `10 ^ k`. The binary length gives it up to
one, and comparing settles the rest. -/
def decimalOrder (x : Binary64) : Int :=
  let guess : Int := ((x.significand.log2 : Int) + x.scale) * 30103 / 100000
  let below (k : Int) : Bool := compareScaled 1 k x.significand x.scale == .gt
  if below (guess - 1) then guess - 1
  else if below guess then guess
  else if below (guess + 1) then guess + 1
  else guess + 2

/-- The greatest point of the decimal grid at `exponent` that is not above the magnitude. -/
def gridBelow (x : Binary64) (exponent : Int) : Nat :=
  x.significand * Nat.pow 2 x.scale.toNat * Nat.pow 10 (-exponent).toNat
    / (Nat.pow 2 (-x.scale).toNat * Nat.pow 10 exponent.toNat)

/-- Of the two grid points next to the number, the one to write: the only one that reads
back, or the nearer one, or the one the tie rule names. -/
def gridPoint? (tie : Tie) (x : Binary64) (exponent : Int) : Option Decimal :=
  let low := x.gridBelow exponent
  let lower : Decimal := ⟨low, exponent⟩
  let upper : Decimal := ⟨low + 1, exponent⟩
  match x.readsBack lower, x.readsBack upper with
  | true, false => some lower
  | false, true => some upper
  | false, false => none
  | true, true =>
    match compareScaled (2 * low + 1) exponent (2 * x.significand) x.scale, tie with
    | .gt, _ => some lower
    | .lt, _ => some upper
    | .eq, .awayFromZero => some upper
    | .eq, .toEven => some (if low % 2 = 0 then lower else upper)

/-- Takes zeros off the end of the digits, at most `fuel` of them. -/
def stripZeros : Nat → Decimal → Decimal
  | 0, d => d
  | fuel + 1, d =>
    if d.digits ≠ 0 ∧ d.digits % 10 = 0 then stripZeros fuel ⟨d.digits / 10, d.exponent + 1⟩ else d

/-- The magnitude itself, as a decimal with all its digits. -/
def exactDecimal (x : Binary64) : Decimal :=
  if 0 ≤ x.scale then ⟨x.significand * Nat.pow 2 x.scale.toNat, 0⟩
  else ⟨x.significand * Nat.pow 5 (-x.scale).toNat, x.scale⟩

/-- Seventeen digits tell any two numbers apart. -/
def digitLimit : Nat := 17

/-- The shortest decimal that reads back to the magnitude of a finite number, nearest to it
among the shortest, without zeros at its end. -/
def shortest (tie : Tie) (x : Binary64) : Decimal :=
  if x.significand = 0 then ⟨0, 0⟩
  else
    let order := x.decimalOrder
    let grids := (List.range digitLimit).map fun (n : Nat) => order - ((n : Int) + 1)
    stripZeros (digitLimit + 1) ((grids.findSome? (x.gridPoint? tie)).getD x.exactDecimal)

/-- The least number above zero needs a single digit. -/
example : shortest .toEven ⟨1⟩ = ⟨5, -324⟩ := by decide +kernel

end Binary64

end Pipework
