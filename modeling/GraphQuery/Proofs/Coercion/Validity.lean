import GraphQuery.Coercion.Arguments

/-! When a value has the form that an input type asks for, and how a variable's value
keeps it when it is moved to a position of another type. -/

namespace GraphQuery

/-! ## Valid values -/

namespace Schema

variable {ρ : Type}

mutual
/-- What a resolver may be handed for an input type. -/
inductive ValidInput (schema : Schema ρ) : TypeRef → Json → Prop where
  | null {type : TypeRef} (nullable : type.isNonNull = false) : ValidInput schema type .null
  | nonNull {inner : TypeRef} {value : Json} (present : value ≠ .null)
      (valid : ValidInput schema inner value) : ValidInput schema (.nonNull inner) value
  | list {item : TypeRef} {items : List Json}
      (valid : ∀ value ∈ items, ValidInput schema item value) :
      ValidInput schema (.list item) (.array items)
  | scalar {name : String} {definition : ScalarDefinition} {given value : Json}
      (found : schema.type? name = some (.scalar definition))
      (accepted : definition.coerceInput given = .ok value) :
      ValidInput schema (.named name) value
  | enum {name : String} {definition : EnumDefinition} {symbol : EnumValue}
      (found : schema.type? name = some (.enum definition))
      (declared : symbol ∈ definition.values.values) :
      ValidInput schema (.named name) symbol.value
  | inputObject {name : String} {definition : InputObjectDefinition}
      {entries : List (String × Json)}
      (found : schema.type? name = some (.inputObject definition))
      (valid : ValidFields schema definition.fields.values entries) :
      ValidInput schema (.named name) (.object entries)

/-- The entries of an input object: those of declared fields in declared order, with
none missing whose field refuses null. -/
inductive ValidFields (schema : Schema ρ) :
    List InputDefinition → List (String × Json) → Prop where
  | nil : ValidFields schema [] []
  | given {declared : InputDefinition} {value : Json} {rest : List InputDefinition}
      {others : List (String × Json)} (valid : ValidInput schema declared.type value)
      (remaining : ValidFields schema rest others) :
      ValidFields schema (declared :: rest) ((declared.name, value) :: others)
  | absent {declared : InputDefinition} {rest : List InputDefinition}
      {others : List (String × Json)} (nullable : declared.type.isNonNull = false)
      (remaining : ValidFields schema rest others) :
      ValidFields schema (declared :: rest) others
end

/-- What the definitions of a schema themselves must see to: defaults of the right form,
and no null in the place of a value that is none. -/
structure SoundInputs (schema : Schema ρ) : Prop where
  scalars : ∀ {name scalar}, schema.type? name = some (.scalar scalar) →
    ∀ value, value ≠ .null → scalar.coerceInput value ≠ .ok .null
  enums : ∀ {name enum}, schema.type? name = some (.enum enum) →
    ∀ symbol ∈ enum.values.values, symbol.value ≠ .null
  defaults : ∀ {name input}, schema.type? name = some (.inputObject input) →
    ∀ declared ∈ input.fields.values, ∀ default,
      declared.default = some default → schema.ValidInput declared.type default

variable {schema : Schema ρ}

theorem ValidInput.ne_null {inner : TypeRef} {value : Json}
    (valid : schema.ValidInput (.nonNull inner) value) : value ≠ .null := by
  cases valid with
  | null nullable => cases nullable
  | nonNull present => exact present

theorem ValidInput.inner {inner : TypeRef} {value : Json}
    (valid : schema.ValidInput (.nonNull inner) value) : schema.ValidInput inner value := by
  cases valid with
  | null nullable => cases nullable
  | nonNull _ valid => exact valid

theorem not_validInput_nonNull_null (inner : TypeRef) :
    ¬ schema.ValidInput (.nonNull inner) .null :=
  fun valid => valid.ne_null rfl

end Schema

/-! ## Types that refuse null once -/

/-- No level refuses null twice, as is true of every type that a document writes. -/
def TypeShape.Collapsed {ν : Type} : TypeShape ν → Prop
  | .named _ => True
  | .list item => item.Collapsed
  | .nonNull inner => inner.isNonNull = false ∧ inner.Collapsed

theorem TypeShape.Collapsed.toNonNull {ν : Type} {shape : TypeShape ν}
    (collapsed : shape.Collapsed) : shape.toNonNull.Collapsed := by
  cases shape with
  | named name => exact ⟨rfl, collapsed⟩
  | list item => exact ⟨rfl, collapsed⟩
  | nonNull inner => exact collapsed

theorem TypeShape.collapsed_relabel {ν μ : Type} (name : ν → μ) (shape : TypeShape ν) :
    (shape.relabel name).Collapsed := by
  induction shape with
  | named label => trivial
  | list item induction => exact induction
  | nonNull inner induction => exact induction.toNonNull

theorem TypeNode.collapsed_toTypeRef (type : TypeNode) : type.toTypeRef.Collapsed :=
  TypeShape.collapsed_relabel Name.text type

theorem TypeShape.toNullable_of_nullable {ν : Type} {shape : TypeShape ν}
    (nullable : shape.isNonNull = false) : shape.toNullable = shape := by
  cases shape with
  | nonNull inner => cases nullable
  | _ => rfl

/-! ## Moving a value to a position -/

@[simp] theorem promote_null (declared position : TypeRef) :
    promote declared position .null = .null := by
  induction position with
  | named name => rfl
  | nonNull position induction => exact induction
  | list position _ => simp [promote]

theorem promote_ne_null {declared position : TypeRef} {value : Json} (present : value ≠ .null) :
    promote declared position value ≠ .null := by
  induction position with
  | named name => exact present
  | nonNull position induction => exact induction
  | list position _ =>
      unfold promote
      split
      · exact absurd rfl present
      · simp
      · exact present
      · simp

theorem promote_nonNull {declared position : TypeRef} {value : Json}
    (nullable : declared.isNonNull = false) :
    promote (.nonNull declared) position value = promote declared position value := by
  induction position with
  | named name => rfl
  | nonNull position induction => exact induction
  | list position _ =>
      have same : (TypeShape.nonNull declared).toNullable = declared.toNullable :=
        (TypeShape.toNullable_of_nullable nullable).symm
      simp only [promote, same]

namespace Schema.ValidInput

variable {ρ : Type} {schema : Schema ρ}

/-- A value that fits a position is valid there, once it is wrapped. -/
theorem promote {declared position : TypeRef} {value : Json} (collapsed : declared.Collapsed)
    (fits : variableFits declared position = true) (valid : schema.ValidInput declared value) :
    schema.ValidInput position (GraphQuery.promote declared position value) := by
  induction declared, position using variableFits.induct generalizing value with
  | case1 declared position induction =>
      rw [variableFits] at fits
      rw [promote_nonNull collapsed.1]
      exact .nonNull (promote_ne_null valid.ne_null) (induction collapsed.2 fits valid.inner)
  | case2 declared position notNonNull => simp [variableFits] at fits
  | case3 declared position _ induction =>
      rw [variableFits] at fits
      · rw [promote_nonNull collapsed.1]
        exact induction collapsed.2 fits valid.inner
      · assumption
  | case4 declared position induction =>
      rw [variableFits] at fits
      cases valid with
      | null _ =>
          rw [promote_null]
          exact .null rfl
      | list valid =>
          refine .list fun wrapped member => ?_
          rcases List.mem_map.mp member with ⟨item, inside, rfl⟩
          exact induction collapsed fits (valid item inside)
  | case5 declared position induction =>
      rw [variableFits] at fits
      by_cases absent : value = .null
      · subst absent
        rw [promote_null]
        exact .null rfl
      · have wrapped : GraphQuery.promote (.named declared) (.list position) value =
            .array [GraphQuery.promote (.named declared) position value] := by
          cases value <;> first | exact absurd rfl absent | rfl
        rw [wrapped]
        refine .list fun item member => ?_
        rw [List.mem_singleton.mp member]
        exact induction collapsed fits valid
  | case6 declared name => simp [variableFits] at fits
  | case7 declared position =>
      rw [variableFits, beq_iff_eq] at fits
      exact fits ▸ valid

end Schema.ValidInput

end GraphQuery
