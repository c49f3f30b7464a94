import GraphQuery.Proofs.Coercion.Substitution

/-! A single item in the place of a list of such items. A literal may always stand there. A
variable may only if no level of its type refuses null: a list around a type moves every level
that refuses null one list further in, where the type itself does not refuse it. -/

namespace GraphQuery

/-! ## Levels that refuse null -/

namespace TypeShape

variable {ν : Type}

/-- How many levels of a type refuse null. -/
def refusals : TypeShape ν → Nat
  | .named _ => 0
  | .list item => item.refusals
  | .nonNull inner => inner.refusals + 1

/-- The levels that refuse null, each counted with the lists around it, which are `depth` more
than those of the type. -/
def refusalDepth (depth : Nat) : TypeShape ν → Nat
  | .named _ => 0
  | .list item => item.refusalDepth (depth + 1)
  | .nonNull inner => inner.refusalDepth depth + depth

theorem refusalDepth_succ (depth : Nat) (shape : TypeShape ν) :
    shape.refusalDepth (depth + 1) = shape.refusalDepth depth + shape.refusals := by
  induction shape generalizing depth with
  | named name => rfl
  | list item induction => exact induction (depth + 1)
  | nonNull inner induction =>
      simp only [refusalDepth, refusals, induction]
      omega

end TypeShape

/-- Wherever a position refuses null, a type that fits it refuses null at the same depth. -/
theorem refusalDepth_le_of_variableFits {declared position : TypeRef}
    (fits : variableFits declared position = true) (depth : Nat) :
    position.refusalDepth depth ≤ declared.refusalDepth depth := by
  induction declared, position using variableFits.induct generalizing depth with
  | case1 declared position induction =>
      rw [variableFits] at fits
      exact Nat.add_le_add_right (induction fits depth) depth
  | case2 declared position notNonNull => simp [variableFits] at fits
  | case3 declared position _ induction =>
      rw [variableFits] at fits
      · exact Nat.le_add_right_of_le (induction fits depth)
      · assumption
  | case4 declared position induction =>
      rw [variableFits] at fits
      exact induction fits (depth + 1)
  | case5 declared position induction =>
      rw [variableFits] at fits
      exact induction fits (depth + 1)
  | case6 declared name => simp [variableFits] at fits
  | case7 declared position => exact Nat.le_refl 0

/-! ## Types and lists of them -/

theorem variableFits_list_self {type : TypeRef} (unmarked : type.refusals = 0) :
    variableFits type (.list type) = true := by
  induction type with
  | named name => simp [variableFits]
  | list item induction => simpa [variableFits] using induction unmarked
  | nonNull inner _ => cases unmarked

theorem refusals_eq_zero_of_fits {type : TypeRef} (fits : variableFits type (.list type) = true) :
    type.refusals = 0 := by
  have bound : type.refusalDepth 1 ≤ type.refusalDepth 0 := refusalDepth_le_of_variableFits fits 0
  rw [TypeShape.refusalDepth_succ] at bound
  omega

theorem not_variableFits_nonNull_list_self (type : TypeRef) :
    variableFits type (.nonNull (.list type)) = false := by
  cases type with
  | named name => simp [variableFits]
  | list item => simp [variableFits]
  | nonNull inner =>
      rw [variableFits, Bool.eq_false_iff]
      intro fits
      have bound : (inner.refusalDepth 1 + 1) ≤ inner.refusalDepth 0 :=
        refusalDepth_le_of_variableFits fits 0
      rw [TypeShape.refusalDepth_succ] at bound
      omega

/-! ## Variables in typed positions -/

theorem coerceVariable_of_misfit {bindings : Variables} {name : String} {binding : Binding}
    {position : TypeRef} (bound : Entries.get? name bindings = some binding)
    (strict : binding.type.isNonNull = true ∨ position.isNonNull = false)
    (misfit : variableFits binding.type position = false) :
    coerceVariable bindings name position =
      .error (.misplacedVariable name binding.type position) := by
  have unmarked : (if binding.hasDefault && !binding.type.isNonNull then position.toNullable
      else position) = position := by
    rcases strict with refuses | nullable
    · simp [refuses]
    · simp [TypeShape.toNullable_of_nullable nullable]
  unfold coerceVariable
  simp only [bound, unmarked, misfit, Bool.not_false, if_true]

theorem coerceVariable_list_self {bindings : Variables} {name : String} {binding : Binding}
    (bound : Entries.get? name bindings = some binding)
    (fits : variableFits binding.type (.list binding.type) = true) :
    coerceVariable bindings name (.list binding.type) =
      .ok ((binding.value.map (promote binding.type (.list binding.type))).getD .null) := by
  cases given : binding.value with
  | none =>
      simp only [coerceVariable, bound, TypeShape.toNullable, ite_self, fits, Bool.not_true,
        Bool.false_eq_true, if_false, given]
      rfl
  | some value => exact coerceVariable_of_fits bound given fits fun _ => rfl

/-! ## Literals -/

/-- A literal that is an item by itself: no variable, no list, and not null. -/
def Literal.isSingle : Literal → Bool
  | .reference _ | .list _ | .null => false
  | _ => true

theorem Schema.coerceLiteral_list_of_single {ρ : Type} {schema : Schema ρ} {bindings : Variables}
    {literal : Literal} (single : literal.isSingle = true) (type : TypeRef) :
    schema.coerceLiteral bindings literal (.list type) =
      (schema.coerceLiteral bindings literal type).map fun value => .array [value] := by
  cases literal with
  | reference name => cases single
  | list items => cases single
  | null => cases single
  | _ => exact Offer.coerce_list_of_single rfl rfl type

/-- Where a list of a type is expected, a variable of the type itself fits if and only if no
level of the type refuses null, and it is refused in all other cases; where the list refuses
null too, it never fits. A literal that is no list is taken for the only item, whatever its
type refuses. -/
theorem item_fills_list_iff (type : TypeRef) :
    (variableFits type (.list type) = true ↔ type.refusals = 0) ∧
    (∀ bindings name binding, Entries.get? name bindings = some binding → binding.type = type →
      (type.refusals = 0 → coerceVariable bindings name (.list type) =
        .ok ((binding.value.map (promote type (.list type))).getD .null)) ∧
      (type.refusals ≠ 0 → coerceVariable bindings name (.list type) =
        .error (.misplacedVariable name type (.list type))) ∧
      (type.isNonNull = true → coerceVariable bindings name (.nonNull (.list type)) =
        .error (.misplacedVariable name type (.nonNull (.list type))))) ∧
    ∀ (ρ : Type) (schema : Schema ρ) bindings (literal : Literal) value,
      literal.isSingle = true → schema.coerceLiteral bindings literal type = .ok value →
        schema.coerceLiteral bindings literal (.list type) = .ok (.array [value]) := by
  have exact : variableFits type (.list type) = true ↔ type.refusals = 0 :=
    ⟨refusals_eq_zero_of_fits, variableFits_list_self⟩
  refine ⟨exact, ?_, ?_⟩
  · rintro bindings name binding bound rfl
    refine ⟨fun unmarked => ?_, fun marked => ?_, fun refuses => ?_⟩
    · exact coerceVariable_list_self bound (exact.mpr unmarked)
    · exact coerceVariable_of_misfit bound (.inr rfl)
        (Bool.eq_false_iff.mpr fun fits => marked (exact.mp fits))
    · exact coerceVariable_of_misfit bound (.inl refuses) (not_variableFits_nonNull_list_self _)
  · intro ρ schema bindings literal value single coerced
    rw [Schema.coerceLiteral_list_of_single single, coerced]
    rfl

namespace Booking

def someNights : Variables :=
  [("night", ⟨.nonNull (.named "Int"), false, some (.integer 7)⟩),
    ("nights", ⟨.list (.named "Int"), false, some (.array [.integer 3, .null])⟩)]

theorem nights_fill_list_of_nights :
    coerceVariable someNights "nights" (.list (.list (.named "Int"))) =
        .ok (.array [.array [.integer 3], .null]) ∧
      coerceVariable someNights "night" (.list (.nonNull (.named "Int"))) =
        .error (.misplacedVariable "night" (.nonNull (.named "Int"))
          (.list (.nonNull (.named "Int")))) ∧
      schema.coerceLiteral someNights (.int 7) (.list (.nonNull (.named "Int"))) =
        .ok (.array [.integer 7]) := by
  have list := item_fills_list_iff (.list (.named "Int"))
  have item := item_fills_list_iff (.nonNull (.named "Int"))
  refine ⟨(list.2.1 someNights "nights" _ rfl rfl).1 rfl, ?_, ?_⟩
  · exact (item.2.1 someNights "night" _ rfl rfl).2.1 (by decide)
  · exact item.2.2 Unit schema someNights (.int 7) _ rfl (by cbv)

/-- A night that must be given is no list of such nights, though the number itself is. -/
theorem night_is_not_nights :
    variableFits (.nonNull (.named "Int")) (.list (.nonNull (.named "Int"))) = false ∧
      schema.coerceLiteral someNights (.reference (name "night"))
          (.list (.nonNull (.named "Int"))) =
        .error (.misplacedVariable "night" (.nonNull (.named "Int"))
          (.list (.nonNull (.named "Int")))) ∧
      schema.coerceLiteral someNights (.reference (name "night"))
          (.nonNull (.list (.nonNull (.named "Int")))) =
        .error (.misplacedVariable "night" (.nonNull (.named "Int"))
          (.nonNull (.list (.nonNull (.named "Int"))))) ∧
      schema.coerceLiteral someNights (.int 7) (.nonNull (.list (.nonNull (.named "Int")))) =
        .ok (.array [.integer 7]) := by
  have misfit : variableFits (.nonNull (.named "Int")) (.list (.nonNull (.named "Int"))) = false :=
    by simp [variableFits]
  refine ⟨misfit, ?_, ?_, by cbv⟩
  · simp [Schema.coerceLiteral, coerceVariable, someNights, name, Entries.get?, variableFits]
  · simp [Schema.coerceLiteral, coerceVariable, someNights, name, Entries.get?, variableFits,
      TypeShape.isNonNull]

end Booking

end GraphQuery
