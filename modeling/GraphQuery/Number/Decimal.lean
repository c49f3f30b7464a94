import GraphQuery.Number.Binary64

namespace GraphQuery

/-! The shortest decimal that reads back as a given double, and the ways to lay
its digits out. Which digits are chosen is a matter of arithmetic; where the
point goes, and when an exponent is written, is decided by a layout. -/

/-- The value `coefficient · 10 ^ exponent`. -/
structure Decimal where
  coefficient : Nat
  exponent : Int
deriving DecidableEq, Repr

namespace Decimal

def digits (decimal : Decimal) : List Char := Nat.toDigits 10 decimal.coefficient

def scientificExponent (decimal : Decimal) : Int :=
  decimal.exponent + decimal.digits.length - 1

def dropZeros : Nat → Decimal → Decimal
  | 0, decimal => decimal
  | zeros + 1, decimal =>
      if decimal.coefficient ≠ 0 ∧ decimal.coefficient % 10 = 0 then
        dropZeros zeros ⟨decimal.coefficient / 10, decimal.exponent + 1⟩
      else decimal

inductive Tie where
  | toEven
  | up
deriving DecidableEq

/-- The reals that round to a positive double: everything between the midpoints
to its two neighbours, the midpoints included when its significand is even.
Measured in quarters of the double's last place, since the gap below a power of
two is half the gap above it. -/
structure RoundingInterval where
  low : Nat
  value : Nat
  high : Nat
  exponent : Int
  closed : Bool

namespace RoundingInterval

def of (significand : Nat) (exponent : Int) : RoundingInterval where
  low := 4 * significand -
    (if significand = Binary64.leastFull ∧ exponent ≠ -1074 then 1 else 2)
  value := 4 * significand
  high := 4 * significand + 2
  exponent := exponent - 2
  closed := significand % 2 == 0

def contains (interval : RoundingInterval) (decimal : Decimal) : Bool :=
  let unit := (Fraction.mk 1 1).scale 2 interval.exponent
  let candidate := (Fraction.mk decimal.coefficient 1).scale 10 decimal.exponent
  let left := candidate.numerator * unit.denominator
  let right := fun quarters : Nat => quarters * unit.numerator * candidate.denominator
  if interval.closed then
    decide (right interval.low ≤ left) && decide (left ≤ right interval.high)
  else
    decide (right interval.low < left) && decide (left < right interval.high)

def onGrid (interval : RoundingInterval) (exponent : Int) : Fraction :=
  ((Fraction.mk interval.value 1).scale 2 interval.exponent).scale 10 (-exponent)

def onGrid? (interval : RoundingInterval) (tie : Tie) (exponent : Int) :
    Option Decimal :=
  let position := interval.onGrid exponent
  let below : Decimal := ⟨position.floor, exponent⟩
  let above : Decimal := ⟨position.floor + 1, exponent⟩
  match interval.contains below, interval.contains above with
  | false, false => none
  | true, false => some below
  | false, true => some above
  | true, true =>
      let twiceRest := 2 * (position.numerator % position.denominator)
      if twiceRest < position.denominator then some below
      else if twiceRest > position.denominator then some above
      else match tie with
        | .up => some above
        | .toEven => some (if position.floor % 2 = 0 then below else above)

def search (interval : RoundingInterval) (tie : Tie) : Nat → Int → Option Decimal
  | 0, _ => none
  | grids + 1, exponent =>
      match interval.onGrid? tie exponent with
      | some decimal => some decimal
      | none => interval.search tie grids (exponent - 1)

end RoundingInterval

/-- The exponent of the greatest power of ten that is not above a positive
value. The binary logarithm gives it up to one step either way. -/
def floorLog10 (value : Fraction) : Int :=
  let estimate := Int.fdiv (value.floorLog2 * 30103) 100000
  let reaches (exponent : Int) : Bool :=
    let scaled := value.scale 10 (-exponent)
    decide (scaled.denominator ≤ scaled.numerator)
  if reaches (estimate + 1) then estimate + 1
  else if reaches estimate then estimate
  else estimate - 1

/-- The decimal with the fewest digits that reads back as the double with this
magnitude, and of those the closest to it. Seventeen digits always suffice. -/
def shortest (tie : Tie) (significand : Nat) (exponent : Int) : Decimal :=
  if significand = 0 then ⟨0, 0⟩
  else
    let interval := RoundingInterval.of significand exponent
    let leading := floorLog10 ((Fraction.mk significand 1).scale 2 exponent)
    match interval.search tie 18 leading with
    | some decimal => dropZeros 20 decimal
    | none => ⟨(interval.onGrid (leading - 17)).floor, leading - 17⟩

structure Layout where
  tie : Tie
  /-- The least exponent that is still written without an `e`. -/
  plainFrom : Int
  /-- The greatest exponent that is still written without an `e`. -/
  plainTo : Int
  exponentSign : String
  infinity : String

namespace Layout

def plain (digits : List Char) (before : Int) : String :=
  if before ≤ 0 then
    "0." ++ String.ofList (List.replicate before.natAbs '0' ++ digits)
  else
    let whole := digits.take before.natAbs
    let fraction := digits.drop before.natAbs
    String.ofList (whole ++ List.replicate (before.natAbs - whole.length) '0') ++ "." ++
      (if fraction.isEmpty then "0" else String.ofList fraction)

def scientific (layout : Layout) (digits : List Char) (exponent : Int) : String :=
  let fraction := digits.drop 1
  String.ofList (digits.take 1) ++
    (if fraction.isEmpty then "" else "." ++ String.ofList fraction) ++ "e" ++
    (if exponent < 0 then "-" else layout.exponentSign) ++ toString exponent.natAbs

def renderDecimal (layout : Layout) (decimal : Decimal) : String :=
  let exponent := decimal.scientificExponent
  if layout.plainFrom ≤ exponent ∧ exponent ≤ layout.plainTo then
    plain decimal.digits (exponent + 1)
  else
    layout.scientific decimal.digits exponent

def render (layout : Layout) : Binary64 → String
  | .infinite negative => (if negative then "-" else "") ++ layout.infinity
  | .finite negative significand exponent _ =>
      (if negative then "-" else "") ++
        layout.renderDecimal (shortest layout.tie significand exponent)

end Layout

end Decimal

end GraphQuery
