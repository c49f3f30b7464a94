namespace GraphQuery

/-! The ranges of whole numbers that fit in words of the usual sizes. -/

inductive Word where
  | int32
  | int64
  | uint64
deriving DecidableEq, Repr

namespace Word

def least : Word → Int
  | .int32 => -2147483648
  | .int64 => -9223372036854775808
  | .uint64 => 0

def greatest : Word → Int
  | .int32 => 2147483647
  | .int64 => 9223372036854775807
  | .uint64 => 18446744073709551615

def Fits (word : Word) (value : Int) : Prop := word.least ≤ value ∧ value ≤ word.greatest

instance (word : Word) (value : Int) : Decidable (word.Fits value) :=
  inferInstanceAs (Decidable (_ ∧ _))

/-- The number in a word that differs from `value` by a multiple of the number of
words, as sums that leave the range come out. -/
def wrap (word : Word) (value : Int) : Int :=
  word.least + (value - word.least) % (word.greatest - word.least + 1)

/-- The number in a word that is nearest to `value`. -/
def clamp (word : Word) (value : Int) : Int :=
  if value < word.least then word.least
  else if word.greatest < value then word.greatest
  else value

theorem least_le_greatest (word : Word) : word.least ≤ word.greatest := by
  cases word <;> decide

theorem fits_wrap (word : Word) (value : Int) : word.Fits (word.wrap value) := by
  have ordered := word.least_le_greatest
  have notNegative :=
    Int.emod_nonneg (value - word.least) (b := word.greatest - word.least + 1) (by omega)
  have bounded :=
    Int.emod_lt_of_pos (value - word.least) (b := word.greatest - word.least + 1) (by omega)
  simp only [Fits, wrap]
  omega

theorem wrap_of_fits {word : Word} {value : Int} (fits : word.Fits value) :
    word.wrap value = value := by
  obtain ⟨above, below⟩ := fits
  rw [wrap, Int.emod_eq_of_lt (by omega) (by omega)]
  omega

theorem clamp_of_fits {word : Word} {value : Int} (fits : word.Fits value) :
    word.clamp value = value := by
  obtain ⟨above, below⟩ := fits
  rw [clamp, if_neg (by omega), if_neg (by omega)]

theorem clamp_of_not_fits {word : Word} {value : Int} (beyond : ¬word.Fits value) :
    word.clamp value = word.least ∨ word.clamp value = word.greatest := by
  rw [clamp]
  split
  · exact .inl rfl
  · split
    · exact .inr rfl
    · exact absurd ⟨by omega, by omega⟩ beyond

end Word

end GraphQuery
