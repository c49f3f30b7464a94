import GraphQuery.Proofs.Number.Rounding
import GraphQuery.Schema.BuiltIn

/-! The scalars that every schema starts with. What one of them gives, it gives again when it is
asked to convert that, in either direction; and whole numbers of 32 bits are recognised in
whatever form they come. -/

namespace GraphQuery

/-! ## Words -/

namespace Word

theorem fits_int64_of_int32 {value : Int} (fits : int32.Fits value) : int64.Fits value := by
  simp only [Fits, least, greatest] at fits ⊢
  omega

theorem clamp_eq_of_fits_int32 {value : Int} (fits : int32.Fits (int64.clamp value)) :
    int64.clamp value = value := by
  by_cases wide : int64.Fits value
  · exact clamp_of_fits wide
  · rcases clamp_of_not_fits wide with edge | edge <;>
      exact absurd (edge ▸ fits) (by decide)

end Word

/-! ## Doubles in words -/

namespace Binary64

theorem exists_wholePart? {value : Binary64} (isWhole : value.isWhole = true) :
    ∃ whole, value.wholePart? = some whole := by
  cases value with
  | infinite negative => cases isWhole
  | finite negative significand exponent canonical => exact ⟨_, rfl⟩

theorem toWord_of_wholePart? {value : Binary64} {whole : Int}
    (part : value.wholePart? = some whole) (word : Word) :
    value.toWord word = word.clamp whole := by
  rw [toWord, part]

/-- The double `2 ^ 63` with either sign, at which words of 64 bits end. -/
def edge (negative : Bool) : Binary64 := .finite negative leastFull 11 (by decide)

theorem toRat?_edge (negative : Bool) :
    (edge negative).toRat? = some (signed negative 9223372036854775808) := by
  rw [edge, toRat?, leastFull_eq]
  norm_num

theorem not_fits_int32_of_ofInt {value whole : Int} (beyond : ¬Word.int64.Fits value)
    (rounded : (ofInt value).toRat? = some (whole : ℚ)) : ¬Word.int32.Fits whole := by
  rintro ⟨above, below⟩
  simp only [Word.Fits, Word.least, Word.greatest] at beyond above below
  rcases lt_or_ge value 0 with negative | nonneg
  · have outside : (value : ℚ) ≤ -9223372036854775808 := by
      exact_mod_cast (by omega : value ≤ -9223372036854775808)
    have kept : (whole : ℚ) ≤ -9223372036854775808 := ofInt_le rounded (toRat?_edge true) outside
    have kept : whole ≤ -9223372036854775808 := by exact_mod_cast kept
    omega
  · have outside : (9223372036854775808 : ℚ) ≤ value := by
      exact_mod_cast (by omega : 9223372036854775808 ≤ value)
    have kept : (9223372036854775808 : ℚ) ≤ whole :=
      le_of_ofInt rounded (toRat?_edge false) outside
    have kept : 9223372036854775808 ≤ whole := by exact_mod_cast kept
    omega

/-- A whole double comes to a number of 32 bits in a word if and only if it is that number:
nothing that was moved to the edge of the word is taken for it. -/
theorem toWord_eq_of_fits_int32_iff {value : Binary64} {whole : Int}
    (fits : Word.int32.Fits whole) :
    value.isWhole = true ∧ value.toWord .int64 = whole ↔ value.toRat? = some (whole : ℚ) := by
  rw [toRat?_eq_intCast_iff]
  refine and_congr_right fun isWhole => ?_
  obtain ⟨part, found⟩ := exists_wholePart? isWhole
  rw [toWord_of_wholePart? found, found, Option.some.injEq]
  constructor
  · rintro rfl
    exact (Word.clamp_eq_of_fits_int32 fits).symm
  · rintro rfl
    exact Word.clamp_of_fits (Word.fits_int64_of_int32 fits)

end Binary64

/-! ## Whole numbers of 32 bits -/

namespace Json

def toRat? : Json → Option ℚ
  | .integer value => some value
  | .float value => value.toRat?
  | _ => none

/-- A value is a number, and this number is whole and has 32 bits. -/
def IsInt32 (value : Json) (whole : Int) : Prop :=
  value.toRat? = some (whole : ℚ) ∧ -2 ^ 31 ≤ whole ∧ whole ≤ 2 ^ 31 - 1

theorem isInt32_iff {value : Json} {whole : Int} :
    value.IsInt32 whole ↔ value.toRat? = some (whole : ℚ) ∧ Word.int32.Fits whole := by
  simp only [IsInt32, Word.Fits, Word.least, Word.greatest]
  norm_num

end Json

namespace BuiltIn

theorem wholeWord?_of_beyond {value : Json} (beyond : value.asInt64? = none) {whole : Int} :
    wholeWord? value = some whole ↔ ∃ number, value.asFloat? = some number ∧
      number.isWhole = true ∧ number.toWord .int64 = whole := by
  simp only [wholeWord?, beyond, Option.map_eq_some_iff, Option.filter_eq_some_iff, and_assoc]

theorem wholeWord?_eq_some_iff {value : Json} {whole : Int} (fits : Word.int32.Fits whole) :
    wholeWord? value = some whole ↔ value.toRat? = some (whole : ℚ) := by
  cases value with
  | integer number =>
      by_cases wide : Word.int64.Fits number
      · simp [wholeWord?, Json.asInt64?, Json.toRat?, wide]
      · -- Neither side holds: the number is beyond 32 bits, and so is the double nearest to it.
        have beyond : (Json.integer number).asInt64? = none := if_neg wide
        refine iff_of_false ?_ ?_
        · rw [wholeWord?_of_beyond beyond]
          rintro ⟨_, ⟨⟩, taken⟩
          have rounded := (Binary64.toWord_eq_of_fits_int32_iff fits).mp taken
          exact Binary64.not_fits_int32_of_ofInt wide rounded fits
        · intro same
          have same : number = whole := by simpa [Json.toRat?] using same
          exact wide (Word.fits_int64_of_int32 (same ▸ fits))
  | float number =>
      rw [wholeWord?_of_beyond rfl, Json.toRat?, ← Binary64.toWord_eq_of_fits_int32_iff fits]
      simp [Json.asFloat?]
  | _ => simp [wholeWord?, Json.asInt64?, Json.asFloat?, Json.toRat?]

theorem coerceInt_eq_ok_iff {value given : Json} :
    coerceInt value = .ok given ↔ ∃ whole, value.IsInt32 whole ∧ given = .integer whole := by
  have recognised (whole : Int) :
      value.IsInt32 whole ↔ wholeWord? value = some whole ∧ Word.int32.Fits whole := by
    rw [Json.isInt32_iff, and_congr_left wholeWord?_eq_some_iff]
  simp only [recognised]
  rw [coerceInt]
  cases wholeWord? value with
  | none => simp
  | some whole =>
      by_cases fits : Word.int32.Fits whole
      · simp [fits, eq_comm]
      · simp [fits]

end BuiltIn

/-! ## Stability -/

namespace ScalarDefinition

/-- Whatever a scalar gives, in either direction, it gives again in both directions. -/
def Stable (scalar : ScalarDefinition) : Prop :=
  ∀ value given, scalar.coerceInput value = .ok given ∨ scalar.coerceResult value = .ok given →
    scalar.coerceInput given = .ok given ∧ scalar.coerceResult given = .ok given

theorem stable_of_same {name : String} {description : Option String} {coerce : Json → Coerced}
    (keeps : ∀ value given, coerce value = .ok given → coerce given = .ok given) :
    Stable ⟨name, description, coerce, coerce⟩ := by
  intro value given coerced
  have again : coerce given = .ok given := keeps value given (coerced.elim id id)
  exact ⟨again, again⟩

end ScalarDefinition

namespace BuiltIn

variable {value given : Json}

theorem coerceInt_of_ok (coerced : coerceInt value = .ok given) :
    coerceInt given = .ok given := by
  obtain ⟨whole, ⟨_, range⟩, rfl⟩ := coerceInt_eq_ok_iff.mp coerced
  exact coerceInt_eq_ok_iff.mpr ⟨whole, ⟨rfl, range⟩, rfl⟩

theorem coerceFloat_of_ok (coerced : coerceFloat value = .ok given) :
    coerceFloat given = .ok given := by
  rw [coerceFloat] at coerced
  split at coerced
  case h_1 number kept =>
    cases coerced
    have finite : number.isFinite = true := (Option.filter_eq_some_iff.mp kept).2
    rw [coerceFloat, Json.asFloat?, Option.filter_some_pos finite]
  case h_2 => cases coerced

theorem coerceBoolean_of_ok (coerced : coerceBoolean value = .ok given) :
    coerceBoolean given = .ok given := by
  cases value with
  | boolean truth =>
      cases coerced
      rfl
  | _ => cases coerced

theorem coerceId_of_ok (coerced : coerceId value = .ok given) :
    coerceId given = .ok given := by
  cases value with
  | string text =>
      cases coerced
      rfl
  | integer number =>
      cases coerced
      rfl
  | _ => cases coerced

theorem exists_string_of_ok
    (coerced : coerceInputString value = .ok given ∨ coerceResultString value = .ok given) :
    ∃ text, given = .string text := by
  rcases coerced with asInput | asResult
  · cases value with
    | string text =>
        cases asInput
        exact ⟨text, rfl⟩
    | _ => cases asInput
  · cases value <;> cases asResult <;> exact ⟨_, rfl⟩

theorem stable_of_mem {scalar : ScalarDefinition} (member : scalar ∈ scalars) :
    scalar.Stable := by
  simp only [scalars, List.mem_cons, List.not_mem_nil, or_false] at member
  rcases member with rfl | rfl | rfl | rfl | rfl
  · exact ScalarDefinition.stable_of_same fun _ _ => coerceInt_of_ok
  · exact ScalarDefinition.stable_of_same fun _ _ => coerceFloat_of_ok
  · intro value given coerced
    obtain ⟨text, rfl⟩ := exists_string_of_ok coerced
    exact ⟨rfl, rfl⟩
  · exact ScalarDefinition.stable_of_same fun _ _ => coerceBoolean_of_ok
  · exact ScalarDefinition.stable_of_same fun _ _ => coerceId_of_ok

/-- The scalars are stable, and `Int` is exact. In both directions it takes a value if and only
if the value is a number that is whole and has 32 bits, in whatever form it comes, and it gives
this very number, as a whole one. -/
theorem scalars_stable_and_int_exact :
    scalars.map ScalarDefinition.name = ["Int", "Float", "String", "Boolean", "ID"] ∧
    (∀ scalar ∈ scalars, scalar.Stable) ∧
    ∀ scalar ∈ scalars, scalar.name = "Int" → ∀ value given,
      (scalar.coerceInput value = .ok given ↔
        ∃ whole, value.IsInt32 whole ∧ given = .integer whole) ∧
      (scalar.coerceResult value = .ok given ↔
        ∃ whole, value.IsInt32 whole ∧ given = .integer whole) := by
  refine ⟨rfl, fun scalar member => stable_of_mem member, ?_⟩
  intro scalar member named value given
  have isInt : scalar.coerceInput = coerceInt ∧ scalar.coerceResult = coerceInt := by
    simp only [scalars, List.mem_cons, List.not_mem_nil, or_false] at member
    rcases member with rfl | rfl | rfl | rfl | rfl
    · exact ⟨rfl, rfl⟩
    all_goals exact absurd named (by decide)
  rw [isInt.1, isInt.2]
  exact ⟨coerceInt_eq_ok_iff, coerceInt_eq_ok_iff⟩

end BuiltIn

/-! ## The miles on an odometer -/

namespace Odometer

def fullTurn : Json := .float (.finite false 9007199250546688 (-22) (by decide))

def overrun : Json := .float (.finite false 4503599627370496 (-21) (by decide))

/-- The full turn comes as a double and is given as a whole number, which stays what it is. One
mile more does not fit, nor does the greatest word of 64 bits, which as a double would even be
beyond them. A reading that is written out as a result can be read as an input. -/
theorem full_turn_is_exact :
    BuiltIn.coerceInt fullTurn = .ok (.integer 2147483647) ∧
    BuiltIn.coerceInt (.integer 2147483647) = .ok (.integer 2147483647) ∧
    (¬ ∃ given, BuiltIn.coerceInt overrun = .ok given) ∧
    (¬ ∃ given, BuiltIn.coerceInt (.integer 18446744073709551615) = .ok given) ∧
    BuiltIn.coerceResultString (.integer 1204) = .ok (.string "1204") ∧
    BuiltIn.coerceInputString (.string "1204") = .ok (.string "1204") := by
  obtain ⟨_, stable, exact⟩ := BuiltIn.scalars_stable_and_int_exact
  have int (value given : Json) := (exact _ (.head _) rfl value given).1
  have whole : fullTurn.IsInt32 2147483647 := by
    refine ⟨?_, by decide, by decide⟩
    norm_num [fullTurn, Json.toRat?, Binary64.toRat?, Binary64.signed]
  have turned : BuiltIn.coerceInt fullTurn = .ok (.integer 2147483647) :=
    (int fullTurn (.integer 2147483647)).mpr ⟨_, whole, rfl⟩
  have oneMore : overrun.toRat? = some ((2147483648 : Int) : ℚ) := by
    norm_num [overrun, Json.toRat?, Binary64.toRat?, Binary64.signed]
  have refused {value : Json} {miles : Int} (is : value.toRat? = some (miles : ℚ))
      (large : 2 ^ 31 ≤ miles) : ¬ ∃ given, BuiltIn.coerceInt value = .ok given := by
    rintro ⟨given, taken⟩
    obtain ⟨number, ⟨same, _, small⟩, _⟩ := (int value given).mp taken
    rw [is, Option.some.injEq, Int.cast_inj] at same
    omega
  have written : BuiltIn.coerceResultString (.integer 1204) = .ok (.string "1204") := by rfl
  have kept := (stable _ (.head _) fullTurn (.integer 2147483647) (.inl turned)).1
  have readBack := (stable _ (.tail _ (.tail _ (.head _))) (.integer 1204) (.string "1204")
    (.inr written)).1
  exact ⟨turned, kept, refused oneMore (by decide), refused rfl (by decide), written, readBack⟩

end Odometer

end GraphQuery
