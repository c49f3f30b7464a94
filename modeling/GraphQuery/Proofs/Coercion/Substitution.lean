import GraphQuery.Proofs.Coercion.Agreement
import GraphQuery.Proofs.Coercion.Binding

/-! A variable gives in a typed position what its literal gives there. The literal is
wrapped while its syntax is read, the value of the variable after it has been coerced. -/

namespace GraphQuery

/-! ## Constants do not depend on variables -/

namespace Literal

variable {bindings others : Variables}

mutual
theorem toJson_eq_of_constant :
    ∀ literal : Literal, literal.hasVariables = false →
      literal.toJson bindings = literal.toJson others
  | .reference _, constant => by cases constant
  | .list items, constant => by
      rw [toJson, toJson, itemsToJson_eq_of_constant items constant]
  | .object fields, constant => by
      rw [toJson, toJson, fieldsToJson_eq_of_constant fields constant]
  | .int _, _ | .float _, _ | .string _, _ | .boolean _, _ | .null, _ | .symbol _, _ => by
      rw [toJson, toJson]

theorem itemsToJson_eq_of_constant :
    ∀ items : List Literal, itemsHaveVariables items = false →
      itemsToJson bindings items = itemsToJson others items
  | [], _ => rfl
  | item :: rest, constant => by
      rw [itemsHaveVariables, Bool.or_eq_false_iff] at constant
      rw [itemsToJson, itemsToJson, toJson_eq_of_constant item constant.1,
        itemsToJson_eq_of_constant rest constant.2]

theorem fieldsToJson_eq_of_constant {collected : Entries Json} :
    ∀ fields : List (Name × Literal), fieldsHaveVariables fields = false →
      fieldsToJson bindings collected fields = fieldsToJson others collected fields
  | [], _ => rfl
  | (name, value) :: rest, constant => by
      rw [fieldsHaveVariables, Bool.or_eq_false_iff] at constant
      rw [fieldsToJson, fieldsToJson, toJson_eq_of_constant value constant.1,
        fieldsToJson_eq_of_constant rest constant.2]
end

end Literal

namespace Schema

variable {ρ : Type} {schema : Schema ρ} {bindings others : Variables}

theorem ofLiteral_eq_of_constant {literal : Literal} (constant : literal.hasVariables = false)
    (items : Option (List Coercer)) (fields : Option (List (String × Coercer))) :
    Offer.ofLiteral bindings literal items fields =
      Offer.ofLiteral others literal items fields := by
  rw [Offer.ofLiteral, Offer.ofLiteral, Literal.toJson_eq_of_constant literal constant]

mutual
theorem coerceLiteral_eq_of_constant :
    ∀ literal : Literal, literal.hasVariables = false →
      schema.coerceLiteral bindings literal = schema.coerceLiteral others literal
  | .reference _, constant => by cases constant
  | .list items, constant => by
      rw [coerceLiteral, coerceLiteral, ofLiteral_eq_of_constant constant,
        literalCoercers_eq_of_constant items constant]
  | .object fields, constant => by
      rw [coerceLiteral, coerceLiteral, ofLiteral_eq_of_constant constant,
        fieldCoercers_eq_of_constant fields constant]
  | .int _, constant | .float _, constant | .string _, constant | .boolean _, constant
  | .null, constant | .symbol _, constant => by
      rw [coerceLiteral, coerceLiteral, ofLiteral_eq_of_constant constant]

theorem literalCoercers_eq_of_constant :
    ∀ items : List Literal, Literal.itemsHaveVariables items = false →
      schema.literalCoercers bindings items = schema.literalCoercers others items
  | [], _ => rfl
  | item :: rest, constant => by
      rw [Literal.itemsHaveVariables, Bool.or_eq_false_iff] at constant
      rw [literalCoercers, literalCoercers, coerceLiteral_eq_of_constant item constant.1,
        literalCoercers_eq_of_constant rest constant.2]

theorem fieldCoercers_eq_of_constant :
    ∀ fields : List (Name × Literal), Literal.fieldsHaveVariables fields = false →
      schema.fieldCoercers bindings fields = schema.fieldCoercers others fields
  | [], _ => rfl
  | (name, value) :: rest, constant => by
      rw [Literal.fieldsHaveVariables, Bool.or_eq_false_iff] at constant
      rw [fieldCoercers, fieldCoercers, coerceLiteral_eq_of_constant value constant.1,
        fieldCoercers_eq_of_constant rest constant.2]
end

end Schema

/-! ## Coercion and promotion -/

/-- Whatever a coercer gives at a type it also gives, wrapped, at every position which that
type fits. -/
def Coercer.Promotes (coercer : Coercer) : Prop :=
  ∀ {declared position : TypeRef} {value : Json}, declared.Collapsed →
    variableFits declared position = true → coercer declared = .ok value →
      coercer position = .ok (promote declared position value)

namespace Offer

/-- An offer of which a named type makes null only if it is null, and nothing if it is a
list. -/
structure Strict {ρ : Type} (schema : Schema ρ) (offer : Offer) : Prop where
  named : ∀ {name value}, offer.isNull = false →
    coerceNamed schema offer name = .ok value → value ≠ .null
  single : ∀ {coercers name value}, offer.items = some coercers →
    coerceNamed schema offer name ≠ .ok value
  items : ∀ {coercers}, offer.items = some coercers → ∀ coercer ∈ coercers, coercer.Promotes

variable {ρ : Type} {schema : Schema ρ} {offer : Offer}

theorem coerce_of_null (absent : offer.isNull = true) {type : TypeRef}
    (nullable : type.isNonNull = false) : offer.coerce schema type = .ok .null := by
  cases type with
  | named name => simp [coerce, absent]
  | list item => simp [coerce, absent]
  | nonNull inner => cases nullable

section Present

variable (present : offer.isNull = false)
include present

theorem coerce_nonNull_of_present (inner : TypeRef) :
    offer.coerce schema (.nonNull inner) = offer.coerce schema inner := by
  simp [coerce, present]

theorem coerce_named_of_present (name : String) :
    offer.coerce schema (.named name) = coerceNamed schema offer name := by
  simp [coerce, present]

theorem coerce_list_of_items {coercers : List Coercer} (given : offer.items = some coercers)
    (item : TypeRef) : offer.coerce schema (.list item) =
      (coercers.mapM fun coercer : Coercer => coercer item).map .array := by
  simp [coerce, present, given]

theorem coerce_list_of_single (given : offer.items = none) (item : TypeRef) :
    offer.coerce schema (.list item) =
      (offer.coerce schema item).map fun value => .array [value] := by
  simp [coerce, present, given]

end Present

theorem Strict.ne_null (strict : offer.Strict schema) (present : offer.isNull = false)
    {type : TypeRef} {value : Json} (done : offer.coerce schema type = .ok value) :
    value ≠ .null := by
  induction type with
  | named name =>
      rw [coerce_named_of_present present] at done
      exact strict.named present done
  | list item _ =>
      cases given : offer.items with
      | some coercers =>
          rw [coerce_list_of_items present given] at done
          obtain ⟨values, _, rfl⟩ := Except.exists_of_map done
          simp
      | none =>
          rw [coerce_list_of_single present given] at done
          obtain ⟨only, _, rfl⟩ := Except.exists_of_map done
          simp
  | nonNull inner induction =>
      rw [coerce_nonNull_of_present present] at done
      exact induction done

theorem nullable_of_coerce_null (absent : offer.isNull = true) {type : TypeRef} {value : Json}
    (done : offer.coerce schema type = .ok value) : type.isNonNull = false := by
  cases type with
  | nonNull inner => simp [coerce, absent] at done
  | _ => rfl

theorem Strict.nullable_of_coerce (strict : offer.Strict schema) {type : TypeRef}
    (done : offer.coerce schema type = .ok .null) : type.isNonNull = false := by
  cases null : offer.isNull with
  | true => exact nullable_of_coerce_null null done
  | false => exact absurd rfl (strict.ne_null null done)

end Offer

theorem isNonNull_of_variableFits {declared position : TypeRef}
    (fits : variableFits declared position = true) (refuses : position.isNonNull = true) :
    declared.isNonNull = true := by
  cases position with
  | nonNull position =>
      cases declared with
      | nonNull declared => rfl
      | named name => simp [variableFits] at fits
      | list item => simp [variableFits] at fits
  | named name => cases refuses
  | list item => cases refuses

theorem nullable_of_variableFits {declared position : TypeRef}
    (fits : variableFits declared position = true) (nullable : declared.isNonNull = false) :
    position.isNonNull = false := by
  apply Bool.eq_false_iff.mpr
  intro refuses
  rw [isNonNull_of_variableFits fits refuses] at nullable
  cases nullable

theorem promotes_items {coercers : List Coercer} {declared position : TypeRef}
    {values : List Json} (promotes : ∀ coercer ∈ coercers, coercer.Promotes)
    (collapsed : declared.Collapsed) (fits : variableFits declared position = true)
    (done : coercers.mapM (fun coercer : Coercer => coercer declared) = .ok values) :
    coercers.mapM (fun coercer : Coercer => coercer position) =
      .ok (values.map fun value => promote declared position value) := by
  induction coercers generalizing values with
  | nil =>
      cases done
      rfl
  | cons coercer rest induction =>
      rw [List.mapM_cons] at done
      obtain ⟨value, first, done⟩ := Except.exists_of_bind done
      obtain ⟨remaining, others, same⟩ := Except.exists_of_bind done
      cases same
      have head : coercer position = .ok (promote declared position value) :=
        promotes coercer List.mem_cons_self collapsed fits first
      have tail := induction
        (fun other member => promotes other (List.mem_cons_of_mem coercer member)) others
      rw [List.mapM_cons, head, tail]
      rfl

namespace Offer

variable {ρ : Type} {schema : Schema ρ} {offer : Offer}

theorem Strict.promotes_present (strict : offer.Strict schema) (present : offer.isNull = false)
    {declared position : TypeRef} {value : Json} (collapsed : declared.Collapsed)
    (fits : variableFits declared position = true)
    (done : offer.coerce schema declared = .ok value) :
    offer.coerce schema position = .ok (promote declared position value) := by
  induction declared, position using variableFits.induct generalizing value with
  | case1 declared position induction =>
      rw [variableFits] at fits
      rw [coerce_nonNull_of_present present] at done ⊢
      rw [promote_nonNull collapsed.1]
      exact induction collapsed.2 fits done
  | case2 declared position notNonNull => simp [variableFits] at fits
  | case3 declared position notNonNull induction =>
      rw [variableFits] at fits
      · rw [coerce_nonNull_of_present present] at done
        rw [promote_nonNull collapsed.1]
        exact induction collapsed.2 fits done
      · exact notNonNull
  | case4 declared position induction =>
      rw [variableFits] at fits
      cases given : offer.items with
      | some coercers =>
          rw [coerce_list_of_items present given] at done ⊢
          obtain ⟨values, coerced, rfl⟩ := Except.exists_of_map done
          have collapsedItem : declared.Collapsed := collapsed
          rw [promotes_items (strict.items given) collapsedItem fits coerced]
          rfl
      | none =>
          rw [coerce_list_of_single present given] at done ⊢
          obtain ⟨only, coerced, rfl⟩ := Except.exists_of_map done
          rw [induction collapsed fits coerced]
          rfl
  | case5 declared position induction =>
      rw [variableFits] at fits
      have different : value ≠ .null := strict.ne_null present done
      cases given : offer.items with
      | some coercers =>
          -- a list is never the value of a named type
          rw [coerce_named_of_present present] at done
          exact absurd done (strict.single given)
      | none =>
          have wrapped : promote (.named declared) (.list position) value =
              .array [promote (.named declared) position value] := by
            cases value <;> first | exact absurd rfl different | rfl
          rw [coerce_list_of_single present given, induction collapsed fits done, wrapped]
          rfl
  | case6 declared name => simp [variableFits] at fits
  | case7 declared position =>
      rw [variableFits, beq_iff_eq] at fits
      subst fits
      exact done

theorem Strict.promotes (strict : offer.Strict schema) : (offer.coerce schema).Promotes := by
  intro declared position value collapsed fits done
  cases null : offer.isNull with
  | true =>
      have nullable := nullable_of_coerce_null null done
      rw [coerce_of_null null nullable] at done
      cases done
      rw [promote_null]
      exact coerce_of_null null (nullable_of_variableFits fits nullable)
  | false => exact strict.promotes_present null collapsed fits done

end Offer

/-! ## Literals -/

namespace Schema

/-- No scalar accepts a list, and nothing but null becomes null. -/
structure StrictInputs {ρ : Type} (schema : Schema ρ) : Prop where
  scalars : ∀ {name scalar}, schema.type? name = some (.scalar scalar) →
    ∀ value, value ≠ .null → scalar.coerceInput value ≠ .ok .null
  lists : ∀ {name scalar}, schema.type? name = some (.scalar scalar) →
    ∀ items value, scalar.coerceInput (.array items) ≠ .ok value
  enums : ∀ {name enum}, schema.type? name = some (.enum enum) →
    ∀ symbol ∈ enum.values.values, symbol.value ≠ .null

variable {ρ : Type} {schema : Schema ρ} {bindings : Variables}

theorem coerceNamed_ofLiteral_ne_null (inputs : schema.StrictInputs) {literal : Literal}
    {items : Option (List Coercer)} {fields : Option (List (String × Coercer))}
    (visible : literal.toJson bindings ≠ .null) {name : String} {value : Json}
    (done : Offer.coerceNamed schema (Offer.ofLiteral bindings literal items fields) name =
      .ok value) : value ≠ .null := by
  unfold Offer.coerceNamed at done
  split at done
  · rename_i scalar found
    rintro rfl
    exact inputs.scalars found _ visible done
  · rename_i enum found
    cases literal with
    | symbol text =>
        have accepted : enum.coerceInput (.string text) = .ok value := done
        obtain ⟨symbol, member, rfl⟩ := EnumDefinition.exists_of_coerceInput accepted
        exact inputs.enums found symbol member
    | _ => cases done
  · split at done
    · unfold Offer.coerceObject at done
      split at done
      · cases done
      · obtain ⟨entries, _, rfl⟩ := Except.exists_of_map done
        simp
    · cases done
  · cases done
  · cases done

theorem coerceNamed_list (inputs : schema.StrictInputs) (literals : List Literal)
    (coercers : List Coercer) (name : String) (value : Json) :
    Offer.coerceNamed schema
      (Offer.ofLiteral bindings (.list literals) (some coercers) none) name ≠ .ok value := by
  intro done
  unfold Offer.coerceNamed at done
  split at done
  · rename_i scalar found
    exact inputs.lists found _ _ done
  all_goals cases done

theorem strict_ofLiteral (inputs : schema.StrictInputs) {literal : Literal}
    (fields : Option (List (String × Coercer)))
    (visible : literal.isNull = false → literal.toJson bindings ≠ .null) :
    (Offer.ofLiteral bindings literal none fields).Strict schema where
  named := fun present done => coerceNamed_ofLiteral_ne_null inputs (visible present) done
  single := nofun
  items := nofun

theorem strict_ofList (inputs : schema.StrictInputs) {literals : List Literal}
    {coercers : List Coercer} (promotes : ∀ coercer ∈ coercers, coercer.Promotes) :
    (Offer.ofLiteral bindings (.list literals) (some coercers) none).Strict schema where
  named := fun _ done => absurd done (coerceNamed_list inputs literals coercers _ _)
  single := fun _ => coerceNamed_list inputs literals coercers _ _
  items := by
    rintro _ ⟨⟩
    exact promotes

mutual
/-- A constant is coerced as a strict offer is. -/
theorem exists_strict_offer (inputs : schema.StrictInputs) (bindings : Variables) :
    ∀ literal : Literal, literal.hasVariables = false → literal.isFinite = true →
      ∃ offer : Offer, offer.Strict schema ∧
        schema.coerceLiteral bindings literal = offer.coerce schema
  | .reference _, constant, _ => by cases constant
  | .list items, constant, finite => by
      rw [coerceLiteral]
      have promotes := promotes_literalCoercers inputs bindings items constant finite
      exact ⟨_, strict_ofList inputs promotes, rfl⟩
  | .object fields, _, _ => by
      rw [coerceLiteral]
      exact ⟨_, strict_ofLiteral inputs _ (by simp [Literal.toJson]), rfl⟩
  | .float value, _, finite => by
      rw [Literal.isFinite] at finite
      rw [coerceLiteral]
      exact ⟨_, strict_ofLiteral inputs _ (by simp [Literal.toJson, Json.ofFloat, finite]), rfl⟩
  | .null, _, _ => by
      rw [coerceLiteral]
      exact ⟨_, strict_ofLiteral inputs _ (by simp [Literal.isNull]), rfl⟩
  | .int _, _, _ | .string _, _, _ | .boolean _, _, _ | .symbol _, _, _ => by
      rw [coerceLiteral]
      exact ⟨_, strict_ofLiteral inputs _ (by simp [Literal.toJson]), rfl⟩

theorem promotes_literalCoercers (inputs : schema.StrictInputs) (bindings : Variables) :
    ∀ items : List Literal, Literal.itemsHaveVariables items = false →
      Literal.itemsAreFinite items = true →
        ∀ coercer ∈ schema.literalCoercers bindings items, coercer.Promotes
  | [], _, _ => by simp [literalCoercers]
  | item :: rest, constant, finite => by
      rw [Literal.itemsHaveVariables, Bool.or_eq_false_iff] at constant
      rw [Literal.itemsAreFinite, Bool.and_eq_true] at finite
      rw [literalCoercers, List.forall_mem_cons]
      obtain ⟨offer, strict, same⟩ :=
        exists_strict_offer inputs bindings item constant.1 finite.1
      exact ⟨same ▸ strict.promotes,
        promotes_literalCoercers inputs bindings rest constant.2 finite.2⟩
end

end Schema

/-! ## Variables -/

theorem coerceVariable_of_fits {bindings : Variables} {name : String} {binding : Binding}
    {position : TypeRef} {value : Json}
    (bound : Entries.get? name bindings = some binding) (given : binding.value = some value)
    (fits : variableFits binding.type position = true)
    (absent : value = .null → position.isNonNull = false) :
    coerceVariable bindings name position = .ok (promote binding.type position value) := by
  have unmarked : (if binding.hasDefault && !binding.type.isNonNull then position.toNullable
      else position) = position := by
    split
    · rename_i relaxed
      rw [Bool.and_eq_true, Bool.not_eq_true'] at relaxed
      exact TypeShape.toNullable_of_nullable (nullable_of_variableFits fits relaxed.2)
    · rfl
  unfold coerceVariable
  simp only [bound, unmarked, fits, Bool.not_true, Bool.false_eq_true, if_false, given]
  cases value with
  | null => simp [absent rfl]
  | _ => rfl

namespace Schema

variable {ρ : Type} {schema : Schema ρ}

/-- In a position that its type fits, a variable which is bound to the value of a constant
gives exactly what the constant gives there. The type of a variable is collapsed, since a
document writes it. -/
theorem variable_stands_for_literal (inputs : schema.StrictInputs) {literal : Literal}
    (constant : literal.hasVariables = false) (finite : literal.isFinite = true)
    {declared position : TypeRef} (collapsed : declared.Collapsed)
    (fits : variableFits declared position = true) {others : Variables} {value : Json}
    (coerced : schema.coerceLiteral others literal declared = .ok value)
    {bindings : Variables} {name : Name} {hasDefault : Bool}
    (bound : Entries.get? name.text bindings = some ⟨declared, hasDefault, some value⟩) :
    schema.coerceLiteral bindings (.reference name) position =
      schema.coerceLiteral bindings literal position := by
  obtain ⟨offer, strict, same⟩ := exists_strict_offer inputs bindings literal constant finite
  have independent : schema.coerceLiteral others literal = offer.coerce schema :=
    (coerceLiteral_eq_of_constant literal constant).trans same
  rw [independent] at coerced
  have promoted : offer.coerce schema position = .ok (promote declared position value) :=
    strict.promotes collapsed fits coerced
  rw [coerceLiteral, same, promoted]
  apply coerceVariable_of_fits bound rfl fits
  intro absent
  rw [absent, promote_null] at promoted
  exact strict.nullable_of_coerce promoted

end Schema

/-! ## Nights in groups -/

theorem BuiltIn.coerceInput_list {scalar : ScalarDefinition} (member : scalar ∈ BuiltIn.scalars)
    (items : List Json) (value : Json) : scalar.coerceInput (.array items) ≠ .ok value := by
  intro coerced
  simp only [BuiltIn.scalars, List.mem_cons, List.not_mem_nil, or_false] at member
  rcases member with rfl | rfl | rfl | rfl | rfl <;> cases coerced

namespace Booking

theorem mem_scalars_of_type? {name : String} {scalar : ScalarDefinition}
    (found : schema.type? name = some (.scalar scalar)) : scalar ∈ BuiltIn.scalars := by
  have member := Entries.mem_of_get? found
  rw [types_eq] at member
  simp only [List.mem_append, List.mem_map, List.mem_cons, Prod.mk.injEq, reduceCtorEq,
    and_false, List.not_mem_nil, or_false, TypeDefinition.scalar.injEq] at member
  obtain ⟨_, member, _, rfl⟩ := member
  exact member

theorem strictInputs : schema.StrictInputs where
  scalars := soundInputs.scalars
  lists := fun found => BuiltIn.coerceInput_list (mem_scalars_of_type? found)
  enums := soundInputs.enums

def nights : Literal := .list [.int 3, .null, .int 5]

def groups : Variables :=
  [("nights", ⟨.nonNull (.list (.named "Int")), false,
    some (.array [.integer 3, .null, .integer 5])⟩)]

/-- In a position of type `[[Int]]` each night becomes a group of its own. -/
theorem nights_in_groups :
    schema.coerceLiteral groups (.reference (name "nights")) (.list (.list (.named "Int"))) =
        schema.coerceLiteral groups nights (.list (.list (.named "Int"))) ∧
      schema.coerceLiteral groups nights (.list (.list (.named "Int"))) =
        .ok (.array [.array [.integer 3], .null, .array [.integer 5]]) := by
  have coerced : schema.coerceLiteral [] nights (.nonNull (.list (.named "Int"))) =
      .ok (.array [.integer 3, .null, .integer 5]) := by
    cbv
  have fits : variableFits (.nonNull (.list (.named "Int"))) (.list (.list (.named "Int"))) =
      true := by
    simp [variableFits]
  have collapsed : TypeShape.Collapsed (.nonNull (.list (.named "Int"))) := ⟨rfl, trivial⟩
  constructor
  · exact Schema.variable_stands_for_literal strictInputs rfl rfl collapsed fits coerced rfl
  · cbv

end Booking

end GraphQuery
