import GraphQuery.Number.Word

namespace GraphQuery

/-! Double-precision numbers as exact values: a sign and a significand times a
power of two. Every operation is computed on naturals and rounded once, to the
nearest double and on a tie to the even significand. There is no "not a
number", since no literal and no JSON number denotes it. -/

structure Fraction where
  numerator : Nat
  denominator : Nat
deriving DecidableEq, Repr

namespace Fraction

def scale (value : Fraction) (base : Nat) : Int → Fraction
  | .ofNat power => ⟨value.numerator * base.pow power, value.denominator⟩
  | .negSucc power => ⟨value.numerator, value.denominator * base.pow (power + 1)⟩

def mul (left right : Fraction) : Fraction :=
  ⟨left.numerator * right.numerator, left.denominator * right.denominator⟩

def div (left right : Fraction) : Fraction :=
  ⟨left.numerator * right.denominator, left.denominator * right.numerator⟩

def floor (value : Fraction) : Nat := value.numerator / value.denominator

def round (value : Fraction) : Nat :=
  let twiceRest := 2 * (value.numerator % value.denominator)
  if twiceRest < value.denominator then value.floor
  else if twiceRest > value.denominator then value.floor + 1
  else value.floor + value.floor % 2

def floorLog2 (value : Fraction) : Int :=
  let estimate : Int := value.numerator.log2 - value.denominator.log2
  let scaled := value.scale 2 (-estimate)
  if scaled.denominator ≤ scaled.numerator then estimate else estimate - 1

end Fraction

def Binary64.leastFull : Nat := 4503599627370496

/-- The one way to write a double's magnitude as `significand · 2 ^ exponent`:
53 bits wherever the exponent range allows it, and fewer only at the lowest
exponent. -/
def Binary64.Canonical (significand : Nat) (exponent : Int) : Prop :=
  significand < 2 * leastFull ∧ exponent ≤ 971 ∧
    (exponent = -1074 ∨ -1074 < exponent ∧ leastFull ≤ significand)

instance (significand : Nat) (exponent : Int) :
    Decidable (Binary64.Canonical significand exponent) := by
  unfold Binary64.Canonical
  infer_instance

inductive Binary64 where
  | infinite (negative : Bool)
  | finite (negative : Bool) (significand : Nat) (exponent : Int)
      (canonical : Binary64.Canonical significand exponent)
deriving DecidableEq

namespace Binary64

def zero (negative : Bool) : Binary64 :=
  .finite negative 0 (-1074) (by decide)

instance : Inhabited Binary64 := ⟨zero false⟩

def isZero : Binary64 → Bool
  | .infinite _ => false
  | .finite _ significand _ _ => significand == 0

def isFinite : Binary64 → Bool
  | .infinite _ => false
  | .finite .. => true

def isNegative : Binary64 → Bool
  | .infinite negative => negative
  | .finite negative _ _ _ => negative

/-- Numeric equality: the two zeros are equal, and otherwise a number has one
form only. -/
def sameValue (left right : Binary64) : Bool :=
  left.isZero && right.isZero || decide (left = right)

theorem sameValue_refl (value : Binary64) : value.sameValue value = true := by
  simp [sameValue]

def ofFraction (negative : Bool) (value : Fraction) : Binary64 :=
  if value.numerator = 0 then zero negative
  else
    let exponent := max (value.floorLog2 - 52) (-1074)
    let rounded := (value.scale 2 (-exponent)).round
    let (significand, exponent) :=
      if rounded = 2 * leastFull then (leastFull, exponent + 1) else (rounded, exponent)
    if canonical : Canonical significand exponent then
      .finite negative significand exponent canonical
    else .infinite negative

def ofInt (value : Int) : Binary64 :=
  ofFraction (decide (value < 0)) ⟨value.natAbs, 1⟩

/-- The double nearest to `coefficient · 10 ^ exponent`. A value with more than
310 digits before the point is beyond every double, and one with more than 330
zeros after it is nearest to zero, so neither needs its power of ten. -/
def ofDecimal (negative : Bool) (coefficient : Nat) (exponent : Int) : Binary64 :=
  let leading := (Nat.toDigits 10 coefficient).length + exponent
  if coefficient = 0 ∨ leading < -330 then zero negative
  else if 310 < leading then .infinite negative
  else ofFraction negative ((Fraction.mk coefficient 1).scale 10 exponent)

def magnitude? : Binary64 → Option Fraction
  | .infinite _ => none
  | .finite _ significand exponent _ =>
      some ((Fraction.mk significand 1).scale 2 exponent)

def isWhole : Binary64 → Bool
  | .infinite _ => false
  | .finite _ significand exponent _ =>
      let magnitude := (Fraction.mk significand 1).scale 2 exponent
      magnitude.numerator % magnitude.denominator == 0

def wholePart? : Binary64 → Option Int
  | .infinite _ => none
  | .finite negative significand exponent _ =>
      let magnitude := (Fraction.mk significand 1).scale 2 exponent
      some (if negative then -magnitude.floor else magnitude.floor)

/-- The whole part of a double in a word. Beyond the word, it is the least or the
greatest number there. -/
def toWord (word : Word) (value : Binary64) : Int :=
  match value.wholePart? with
  | some whole => word.clamp whole
  | none => if value.isNegative then word.least else word.greatest

end Binary64

end GraphQuery
