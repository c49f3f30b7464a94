import GraphQuery.Number.Binary64
import Mathlib.Algebra.Order.Field.Power
import Mathlib.Data.Rat.Cast.Order
import Mathlib.Tactic.Linarith
import Mathlib.Tactic.NormNum
import Mathlib.Tactic.Positivity
import Mathlib.Tactic.Ring

/-! Doubles as rational numbers. A fraction is rounded to a double that no other double is
nearer than, and so rounding never leads across a double. -/

namespace GraphQuery

/-! ## Fractions -/

namespace Fraction

def toRat (value : Fraction) : ℚ := value.numerator / value.denominator

theorem toRat_nonneg (value : Fraction) : 0 ≤ value.toRat := by
  unfold toRat
  positivity

@[simp] theorem toRat_whole (number : Nat) : (Fraction.mk number 1).toRat = number := by
  simp [toRat]

theorem toRat_scale (value : Fraction) (base : Nat) (exponent : Int) :
    (value.scale base exponent).toRat = value.toRat * (base : ℚ) ^ exponent := by
  cases exponent with
  | ofNat power =>
      simp only [scale, toRat, Nat.pow_eq, Nat.cast_mul, Nat.cast_pow, Int.ofNat_eq_natCast,
        zpow_natCast]
      ring
  | negSucc power =>
      simp only [scale, toRat, Nat.pow_eq, Nat.cast_mul, Nat.cast_pow, zpow_negSucc]
      ring

theorem denominator_scale_pos {value : Fraction} (positive : 0 < value.denominator) {base : Nat}
    (basePositive : 0 < base) (exponent : Int) : 0 < (value.scale base exponent).denominator := by
  cases exponent with
  | ofNat power => exact positive
  | negSucc power => exact Nat.mul_pos positive (Nat.pow_pos basePositive)

section Positive

variable {value : Fraction} (positive : 0 < value.denominator)
include positive

theorem toRat_eq_floor_add :
    value.toRat =
      value.floor + (value.numerator % value.denominator : Nat) / value.denominator := by
  have split := Nat.div_add_mod value.numerator value.denominator
  have nonzero : (value.denominator : ℚ) ≠ 0 := by positivity
  rw [toRat, floor, div_eq_iff nonzero, add_mul, div_mul_cancel₀ _ nonzero]
  exact_mod_cast (Nat.mul_comm _ _ ▸ split).symm

theorem toRat_eq_natCast_iff {number : Nat} :
    value.toRat = number ↔
      value.numerator % value.denominator = 0 ∧ value.floor = number := by
  have nonzero : (value.denominator : ℚ) ≠ 0 := by positivity
  rw [toRat, div_eq_iff nonzero, floor]
  norm_cast
  constructor
  · intro product
    rw [product]
    exact ⟨Nat.mul_mod_left _ _, Nat.mul_div_cancel _ positive⟩
  · rintro ⟨divides, rfl⟩
    exact (Nat.div_mul_cancel (Nat.dvd_of_mod_eq_zero divides)).symm

theorem floor_le_toRat : (value.floor : ℚ) ≤ value.toRat := by
  rw [toRat_eq_floor_add positive]
  exact le_add_of_nonneg_right (by positivity)

theorem toRat_le_floor_add_one : value.toRat ≤ value.floor + 1 := by
  have below : (value.numerator % value.denominator : Nat) ≤ (value.denominator : ℚ) := by
    exact_mod_cast (Nat.mod_lt value.numerator positive).le
  rw [toRat_eq_floor_add positive]
  gcongr
  exact div_le_one_of_le₀ below (by positivity)

theorem round_eq :
    value.round = value.floor ∧ value.toRat ≤ value.floor + 1 / 2 ∨
      value.round = value.floor + 1 ∧ value.floor + 1 / 2 ≤ value.toRat := by
  have denominatorPositive : (0 : ℚ) < value.denominator := by exact_mod_cast positive
  have lower (small : 2 * (value.numerator % value.denominator) ≤ value.denominator) :
      value.toRat ≤ value.floor + 1 / 2 := by
    rw [toRat_eq_floor_add positive, add_le_add_iff_left, div_le_div_iff₀ denominatorPositive
      two_pos, one_mul, mul_comm]
    exact_mod_cast small
  have upper (large : value.denominator ≤ 2 * (value.numerator % value.denominator)) :
      (value.floor : ℚ) + 1 / 2 ≤ value.toRat := by
    rw [toRat_eq_floor_add positive, add_le_add_iff_left, div_le_div_iff₀ two_pos
      denominatorPositive, one_mul, mul_comm]
    exact_mod_cast large
  unfold round
  dsimp only
  split
  case isTrue small => exact .inl ⟨rfl, lower small.le⟩
  case isFalse notSmall =>
    split
    case isTrue large => exact .inr ⟨rfl, upper large.le⟩
    case isFalse notLarge =>
      -- A tie: both neighbours are a half away, and the even one is taken.
      rcases Nat.mod_two_eq_zero_or_one value.floor with even | odd
      · exact .inl ⟨by rw [even, Nat.add_zero], lower (by omega)⟩
      · exact .inr ⟨by rw [odd], upper (by omega)⟩

theorem round_nearest (other : Int) :
    |(value.round : ℚ) - value.toRat| ≤ |(other : ℚ) - value.toRat| := by
  have below := floor_le_toRat positive
  have above := toRat_le_floor_add_one positive
  have before := le_abs_self ((other : ℚ) - value.toRat)
  have behind := neg_le_abs ((other : ℚ) - value.toRat)
  -- Any other whole number lies beyond one of the two neighbours.
  rcases le_or_gt other value.floor with low | high
  · have low : (other : ℚ) ≤ value.floor := by exact_mod_cast low
    rcases round_eq positive with ⟨rounded, near⟩ | ⟨rounded, near⟩ <;>
      rw [rounded, abs_le] <;> push_cast <;> constructor <;> linarith
  · have high : (value.floor : ℚ) + 1 ≤ other := by exact_mod_cast high
    rcases round_eq positive with ⟨rounded, near⟩ | ⟨rounded, near⟩ <;>
      rw [rounded, abs_le] <;> push_cast <;> constructor <;> linarith

theorem round_scale_nearest (exponent other : Int) :
    |((value.scale 2 (-exponent)).round : ℚ) * 2 ^ exponent - value.toRat| ≤
      |(other : ℚ) * 2 ^ exponent - value.toRat| := by
  have nearest := round_nearest (denominator_scale_pos positive two_pos (-exponent)) other
  have unit : (0 : ℚ) < 2 ^ exponent := by positivity
  have scaled (number : ℚ) : |number * 2 ^ exponent - value.toRat| =
      |number - (value.scale 2 (-exponent)).toRat| * 2 ^ exponent := by
    rw [← abs_of_pos unit, ← abs_mul, abs_of_pos unit, toRat_scale, sub_mul, mul_assoc,
      Nat.cast_ofNat, ← zpow_add₀ two_ne_zero, neg_add_cancel, zpow_zero, mul_one]
  rw [scaled, scaled]
  exact mul_le_mul_of_nonneg_right nearest unit.le

theorem two_zpow_floorLog2_le (nonzero : value.numerator ≠ 0) :
    (2 : ℚ) ^ value.floorLog2 ≤ value.toRat := by
  have denominatorPositive : (0 : ℚ) < value.denominator := by exact_mod_cast positive
  rw [floorLog2]
  split
  case isTrue reached =>
    have atLeastOne : 1 ≤ (value.scale 2
        (-(value.numerator.log2 - value.denominator.log2 : Int))).toRat := by
      rw [toRat, one_le_div (by exact_mod_cast denominator_scale_pos positive two_pos _)]
      exact_mod_cast reached
    rwa [toRat_scale, Nat.cast_ofNat, zpow_neg, ← div_eq_mul_inv,
      one_le_div (by positivity)] at atLeastOne
  case isFalse =>
    -- The logarithms are rounded down, and so the estimate is too high by less than one.
    have numerator : (2 : ℚ) ^ value.numerator.log2 ≤ value.numerator := by
      exact_mod_cast Nat.log2_self_le nonzero
    have denominator : (value.denominator : ℚ) ≤ 2 ^ (value.denominator.log2 + 1) := by
      exact_mod_cast Nat.lt_log2_self.le
    calc (2 : ℚ) ^ ((value.numerator.log2 : Int) - value.denominator.log2 - 1)
      _ = 2 ^ value.numerator.log2 / 2 ^ (value.denominator.log2 + 1) := by
          rw [sub_sub, zpow_sub₀ two_ne_zero, zpow_natCast]
          norm_cast
      _ ≤ value.numerator / value.denominator := by gcongr

end Positive

end Fraction

/-! ## Doubles -/

namespace Binary64

def signed (negative : Bool) (magnitude : ℚ) : ℚ := if negative then -magnitude else magnitude

theorem abs_signed {magnitude : ℚ} (nonneg : 0 ≤ magnitude) (negative : Bool) :
    |signed negative magnitude| = magnitude := by
  cases negative <;> simp [signed, abs_of_nonneg nonneg]

theorem abs_signed_sub (negative : Bool) (left right : ℚ) :
    |signed negative left - signed negative right| = |left - right| := by
  cases negative
  · rfl
  · rw [signed, if_pos rfl, signed, if_pos rfl, neg_sub_neg, abs_sub_comm]

def toRat? : Binary64 → Option ℚ
  | .infinite _ => none
  | .finite negative significand exponent _ => some (signed negative (significand * 2 ^ exponent))

theorem leastFull_eq : (leastFull : ℚ) = 2 ^ (52 : Int) := by
  norm_num [leastFull]

/-! ### Rounding -/

section Rounding

variable {value : Fraction} (positive : 0 < value.denominator)
include positive

/-- On a grid that is no coarser than the doubles of the size of a fraction, no double is nearer
to the fraction than the point of the grid to which it is rounded. -/
theorem round_scale_nearest_of_canonical {exponent : Int}
    (fine : exponent = -1074 ∨ (2 : ℚ) ^ (exponent + 52) ≤ value.toRat)
    {significand : Nat} {other : Int} (canonical : Canonical significand other) :
    |((value.scale 2 (-exponent)).round : ℚ) * 2 ^ exponent - value.toRat| ≤
      |(significand : ℚ) * 2 ^ other - value.toRat| := by
  obtain ⟨narrow, _, lowest⟩ := canonical
  rcases le_or_gt exponent other with onGrid | finer
  · have point : (significand : ℚ) * 2 ^ other =
        ((significand * 2 ^ (other - exponent).toNat : Int) : ℚ) * 2 ^ exponent := by
      push_cast
      rw [mul_assoc, ← zpow_natCast, Int.toNat_of_nonneg (by omega), ← zpow_add₀ two_ne_zero,
        sub_add_cancel]
    rw [point]
    exact Fraction.round_scale_nearest positive exponent _
  · -- Doubles off the grid lie below the least full one on it, and that one below the fraction.
    have above : (2 : ℚ) ^ (exponent + 52) ≤ value.toRat := fine.resolve_left (by omega)
    have edge : (leastFull : ℚ) * 2 ^ exponent = 2 ^ (exponent + 52) := by
      rw [leastFull_eq, ← zpow_add₀ two_ne_zero, add_comm]
    have below : (significand : ℚ) * 2 ^ other ≤ 2 ^ (exponent + 52) :=
      calc (significand : ℚ) * 2 ^ other
        _ ≤ (2 * leastFull : Nat) * 2 ^ (exponent - 1) := by
            gcongr
            · exact one_le_two
            · omega
        _ = leastFull * 2 ^ exponent := by
            rw [Nat.cast_mul, Nat.cast_ofNat, zpow_sub_one₀ two_ne_zero]
            ring
        _ = 2 ^ (exponent + 52) := edge
    have nearest := Fraction.round_scale_nearest positive exponent leastFull
    rw [Int.cast_natCast, edge, abs_of_nonpos (sub_nonpos.mpr above)] at nearest
    rw [abs_of_nonpos (a := (significand : ℚ) * _ - _) (sub_nonpos.mpr (below.trans above))]
    linarith

theorem ofFraction_eq_finite (nonzero : value.numerator ≠ 0) {negative sign : Bool}
    {significand : Nat} {exponent : Int} {canonical : Canonical significand exponent}
    (rounded : ofFraction negative value = .finite sign significand exponent canonical) :
    sign = negative ∧ ∃ unit : Int, (unit = -1074 ∨ (2 : ℚ) ^ (unit + 52) ≤ value.toRat) ∧
      (significand : ℚ) * 2 ^ exponent = (value.scale 2 (-unit)).round * 2 ^ unit := by
  have fine : max (value.floorLog2 - 52) (-1074) = -1074 ∨
      (2 : ℚ) ^ (max (value.floorLog2 - 52) (-1074) + 52) ≤ value.toRat := by
    rcases le_total (value.floorLog2 - 52) (-1074) with low | high
    · exact .inl (max_eq_right low)
    · rw [max_eq_left high, sub_add_cancel]
      exact .inr (Fraction.two_zpow_floorLog2_le positive nonzero)
  rw [ofFraction, if_neg nonzero] at rounded
  -- A significand that has grown to 54 bits is halved, which leaves the number as it is.
  by_cases full :
      (value.scale 2 (-max (value.floorLog2 - 52) (-1074))).round = 2 * leastFull
  · simp only [full, if_true] at rounded
    split at rounded
    · cases rounded
      refine ⟨rfl, _, fine, ?_⟩
      rw [full, zpow_add_one₀ two_ne_zero, Nat.cast_mul, Nat.cast_ofNat]
      ring
    · cases rounded
  · simp only [full, if_false] at rounded
    split at rounded
    · cases rounded
      exact ⟨rfl, _, fine, rfl⟩
    · cases rounded

theorem ofFraction_nearest {negative : Bool} {number : ℚ}
    (rounded : (ofFraction negative value).toRat? = some number) {other : Binary64}
    {otherNumber : ℚ} (isOther : other.toRat? = some otherNumber) :
    |number - signed negative value.toRat| ≤ |otherNumber - signed negative value.toRat| := by
  by_cases nonzero : value.numerator = 0
  · have isZero : number = 0 := by
      rw [ofFraction, if_pos nonzero, zero, toRat?, Option.some.injEq] at rounded
      simp [← rounded, signed]
    have valueZero : value.toRat = 0 := by simp [Fraction.toRat, nonzero]
    simp [isZero, valueZero, signed]
  cases result : ofFraction negative value with
  | infinite sign =>
      rw [result] at rounded
      cases rounded
  | finite sign significand exponent canonical =>
      cases other with
      | infinite otherSign => cases isOther
      | finite otherSign otherSignificand otherExponent otherCanonical =>
          obtain ⟨rfl, unit, fine, magnitude⟩ := ofFraction_eq_finite positive nonzero result
          have nearest := round_scale_nearest_of_canonical positive fine otherCanonical
          rw [result, toRat?, Option.some.injEq] at rounded
          rw [toRat?, Option.some.injEq] at isOther
          calc |number - signed sign value.toRat|
            _ = |(significand : ℚ) * 2 ^ exponent - value.toRat| := by
                rw [← rounded, abs_signed_sub]
            _ ≤ |(otherSignificand : ℚ) * 2 ^ otherExponent - value.toRat| := magnitude ▸ nearest
            _ = |(|otherNumber| - |signed sign value.toRat|)| := by
                rw [← isOther, abs_signed (by positivity), abs_signed value.toRat_nonneg]
            _ ≤ |otherNumber - signed sign value.toRat| := abs_abs_sub_abs_le _ _

end Rounding

section Whole

variable {value : Int} {number : ℚ} (rounded : (ofInt value).toRat? = some number)
  {other : Binary64} {otherNumber : ℚ} (isOther : other.toRat? = some otherNumber)
include rounded isOther

theorem ofInt_nearest : |number - value| ≤ |otherNumber - value| := by
  have same : signed (decide (value < 0)) (Fraction.mk value.natAbs 1).toRat = value := by
    rw [Fraction.toRat_whole, Nat.cast_natAbs]
    rcases lt_or_ge value 0 with negative | nonneg
    · simp [signed, negative, abs_of_neg]
    · simp [signed, not_lt.mpr nonneg, abs_of_nonneg nonneg]
  have nearest := ofFraction_nearest Nat.one_pos rounded isOther
  rwa [same] at nearest

theorem le_of_ofInt (below : otherNumber ≤ value) : otherNumber ≤ number := by
  have nearest := ofInt_nearest rounded isOther
  rw [abs_of_nonpos (sub_nonpos.mpr below)] at nearest
  linarith [neg_le_abs (number - value)]

theorem ofInt_le (above : value ≤ otherNumber) : number ≤ otherNumber := by
  have nearest := ofInt_nearest rounded isOther
  rw [abs_of_nonneg (sub_nonneg.mpr above)] at nearest
  linarith [le_abs_self (number - value)]

end Whole

/-! ### Whole numbers -/

theorem signed_eq_intCast_iff {value : Fraction} (positive : 0 < value.denominator)
    {negative : Bool} {whole : Int} :
    signed negative value.toRat = whole ↔ value.numerator % value.denominator = 0 ∧
      (if negative then -(value.floor : Int) else value.floor) = whole := by
  constructor
  · intro same
    have magnitude : value.toRat = whole.natAbs := by
      rw [← abs_signed value.toRat_nonneg negative, same, Nat.cast_natAbs, Int.cast_abs]
    obtain ⟨divides, floor⟩ := (Fraction.toRat_eq_natCast_iff positive).mp magnitude
    refine ⟨divides, ?_⟩
    rw [magnitude, Nat.cast_natAbs] at same
    rw [floor, Int.natCast_natAbs]
    cases negative <;> simp only [signed, Bool.false_eq_true, if_true, if_false] at same ⊢ <;>
      exact_mod_cast same
  · rintro ⟨divides, rfl⟩
    rw [(Fraction.toRat_eq_natCast_iff positive).mpr ⟨divides, rfl⟩]
    cases negative <;> simp [signed]

theorem toRat?_eq_intCast_iff {value : Binary64} {whole : Int} :
    value.toRat? = some (whole : ℚ) ↔ value.isWhole = true ∧ value.wholePart? = some whole := by
  cases value with
  | infinite negative => simp [toRat?, isWhole]
  | finite negative significand exponent canonical =>
      have positive : 0 < ((Fraction.mk significand 1).scale 2 exponent).denominator :=
        Fraction.denominator_scale_pos Nat.one_pos two_pos exponent
      have magnitude : (significand : ℚ) * 2 ^ exponent =
          ((Fraction.mk significand 1).scale 2 exponent).toRat := by
        rw [Fraction.toRat_scale, Fraction.toRat_whole, Nat.cast_ofNat]
      rw [toRat?, isWhole, wholePart?, magnitude, Option.some.injEq, Option.some.injEq,
        signed_eq_intCast_iff positive, beq_iff_eq]

end Binary64

end GraphQuery
