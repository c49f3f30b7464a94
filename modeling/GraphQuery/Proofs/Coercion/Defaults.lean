import GraphQuery.Proofs.Coercion.Agreement
import GraphQuery.Proofs.Schema.Built

/-! The default of a variable does what the same value would do if it came with the
request. -/

namespace GraphQuery

namespace Schema

variable {ρ : Type} {schema : Schema ρ} {given : Entries Json}

theorem toOption_variableValue_given (type : TypeRef) (default : Option Literal) (value : Json) :
    (schema.variableValue type default (some value)).toOption =
      (schema.coerceInput value type).toOption.map some := by
  simp only [variableValue]
  split
  · -- null is given where it is refused, and `coerceInput` refuses it too
    rename_i refused
    rw [Bool.and_eq_true] at refused
    cases value with
    | null =>
        cases type with
        | nonNull inner => rfl
        | named name => cases refused.2
        | list item => cases refused.2
    | _ => cases refused.1
  · cases schema.coerceInput value type <;> rfl

theorem toOption_variableValue_default (type : TypeRef) (default : Literal) :
    (schema.variableValue type (some default) none).toOption =
      (schema.coerceLiteral [] default type).toOption.map some := by
  simp only [variableValue]
  cases schema.coerceLiteral [] default type <;> rfl

theorem toOption_bindVariable (definition : VariableDefinition) {given others : Entries Json}
    (same : (schema.variableValue definition.type.toTypeRef definition.default
        (Entries.get? definition.name.text given)).toOption =
      (schema.variableValue definition.type.toTypeRef definition.default
        (Entries.get? definition.name.text others)).toOption) :
    (schema.bindVariable definition given).toOption =
      (schema.bindVariable definition others).toOption := by
  simp only [bindVariable]
  split
  · rfl
  · split
    · rfl
    · cases first : schema.variableValue definition.type.toTypeRef definition.default
          (Entries.get? definition.name.text given) <;>
        cases second : schema.variableValue definition.type.toTypeRef definition.default
            (Entries.get? definition.name.text others) <;>
          simp_all [Except.toOption]

theorem toOption_bindVariables {definitions : List VariableDefinition} {given others : Entries Json}
    (same : ∀ definition ∈ definitions, (schema.bindVariable definition given).toOption =
      (schema.bindVariable definition others).toOption) (bindings : Variables) :
    (schema.bindVariables given definitions bindings).toOption =
      (schema.bindVariables others definitions bindings).toOption := by
  induction definitions generalizing bindings with
  | nil => rfl
  | cons definition rest induction =>
      rw [List.forall_mem_cons] at same
      simp only [bindVariables, Except.toOption_bind, same.1, induction same.2]

/-- The default of a variable is a constant that quotes no symbol. -/
def HasDefault (schema : Schema ρ) (definition : VariableDefinition) (plain : Json) : Prop :=
  ∃ default, definition.default = some default ∧ default.IsConstant ∧
    ¬ schema.QuotesSymbol definition.type.toTypeRef default ∧ default.toJson [] = plain

theorem HasDefault.toOption_variableValue {definition : VariableDefinition} {plain : Json}
    (hasDefault : schema.HasDefault definition plain) :
    (schema.variableValue definition.type.toTypeRef definition.default none).toOption =
      (schema.variableValue definition.type.toTypeRef definition.default
        (some plain)).toOption := by
  rcases hasDefault with ⟨default, defined, constant, unquoted, rfl⟩
  rw [defined, toOption_variableValue_default, toOption_variableValue_given,
    agrees_of_isConstant constant _ unquoted]

/-- A variable that is not given is bound as if its default came with the request, where a
name that is defined again has the same default again; and a constant in a literal is coerced
as its JSON form is. -/
theorem default_acts_as_given {definitions : List VariableDefinition} {name : String}
    {plain : Json} (lacking : Entries.get? name given = none)
    (defaults : ∀ definition ∈ definitions, definition.name.text = name →
      schema.HasDefault definition plain) :
    (∀ bindings, schema.coerceVariables definitions given = .ok bindings ↔
      schema.coerceVariables definitions (Entries.insert name plain given) = .ok bindings) ∧
    ∀ (literal : Literal) (type : TypeRef) (bindings : Variables), literal.IsConstant →
      ¬ schema.QuotesSymbol type literal → ∀ value,
        schema.coerceLiteral bindings literal type = .ok value ↔
          schema.coerceInput (literal.toJson bindings) type = .ok value := by
  constructor
  · intro bindings
    rw [← Except.toOption_eq_some_iff, ← Except.toOption_eq_some_iff, coerceVariables,
      coerceVariables, toOption_bindVariables fun definition member => ?_]
    apply toOption_bindVariable
    by_cases same : definition.name.text = name
    · rw [same, lacking, Entries.get?_insert_self]
      exact (defaults definition member same).toOption_variableValue
    · rw [Entries.get?_insert_of_ne (Ne.symm same)]
  · intro literal type bindings constant unquoted value
    rw [← Except.toOption_eq_some_iff, ← Except.toOption_eq_some_iff,
      agrees_of_isConstant constant _ unquoted]

end Schema

/-! ## Products of a dairy -/

namespace Dairy

def animal : EnumDefinition where
  name := "Animal"
  description := none
  values :=
    [("COW", ⟨"COW", .integer 1, none⟩), ("GOAT", ⟨"GOAT", .string "GOAT", none⟩)]

def product : InputObjectDefinition where
  name := "Product"
  description := none
  fields :=
    [("source", ⟨"source", none, .nonNull (.named "Animal"), none⟩),
      ("labels", ⟨"labels", none, .list (.nonNull (.named "String")), none⟩),
      ("portions", ⟨"portions", none, .named "Int", some (.integer 2)⟩)]

def query : ObjectDefinition Unit where
  name := "Query"
  description := none
  fields := [("price", ⟨"price", none, .named "Int", [], none⟩)]
  implements := []

def builder : SchemaBuilder Unit :=
  (((SchemaBuilder.initial.add (.enum animal)).add (.inputObject product)).add
    (.object query)).withRoot .query "Query"

def schema : Schema Unit where
  types := builder.types
  query := "Query"
  mutation := none
  subscription := none

def name (text : String) : Name := ⟨text, ⟨0, 0⟩, ⟨1, 1⟩⟩

def fresh : Literal :=
  .list [.object [(name "source", .symbol "COW"), (name "labels", .string "fresh")]]

def freshJson : Json :=
  .array [.object [("source", .string "COW"), ("labels", .string "fresh")]]

/-- The variable `$products: [Product!]! = [{source: COW, labels: "fresh"}]`. -/
def products : VariableDefinition :=
  ⟨name "products", .nonNull (.list (.nonNull (.named (name "Product")))), some fresh, ⟨0, 0⟩,
    ⟨1, 1⟩⟩

theorem fresh_isConstant : fresh.IsConstant := by
  refine .list ?_
  rw [List.forall_mem_singleton]
  refine .object (by decide) ?_
  rw [List.forall_mem_cons, List.forall_mem_singleton]
  exact ⟨.symbol "COW", .string "fresh"⟩

theorem not_quotesSymbol_labels (text : String) :
    ¬ schema.QuotesSymbol (.list (.nonNull (.named "String"))) (.string text) := by
  rintro (_ | _ | _ | ⟨_, _ | ⟨⟨found⟩⟩⟩)
  cases found

theorem not_quotesSymbol_fresh : ¬ schema.QuotesSymbol products.type.toTypeRef fresh := by
  rintro (_ | quotes)
  rcases quotes with _ | _ | ⟨member, quotes⟩ | ⟨single, quotes⟩
  · rw [List.mem_singleton] at member
    subst member
    rcases quotes with _ | quotes
    rcases quotes with _ | _ | _ | _ | ⟨found, isDeclared, member, named, quotes⟩
    cases found
    simp only [product, Entries.values, List.map_cons, List.map_nil, List.mem_cons,
      List.not_mem_nil, or_false] at isDeclared
    simp only [List.mem_cons, List.not_mem_nil, or_false] at member
    rcases member with rfl | rfl
    · rcases isDeclared with rfl | rfl | rfl
      · rcases quotes with _ | quotes
        cases quotes
      · exact absurd named (by decide)
      · exact absurd named (by decide)
    · rcases isDeclared with rfl | rfl | rfl
      · exact absurd named (by decide)
      · exact not_quotesSymbol_labels "fresh" quotes
      · exact absurd named (by decide)
  · exact single _ rfl

theorem fresh_arrives :
    schema.HasDefault products freshJson ∧
      schema.coerceVariables [products] (Entries.insert "products" freshJson []) =
        .ok [("products", ⟨products.type.toTypeRef, true,
          some (.array [.object [("source", .integer 1), ("labels", .array [.string "fresh"]),
            ("portions", .integer 2)]])⟩)] := by
  have hasDefault : schema.HasDefault products freshJson :=
    ⟨fresh, rfl, fresh_isConstant, not_quotesSymbol_fresh, rfl⟩
  refine ⟨hasDefault, ?_⟩
  refine ((Schema.default_acts_as_given rfl ?_).1 _).mp rfl
  intro definition member _
  rw [List.mem_singleton] at member
  exact member ▸ hasDefault

end Dairy

end GraphQuery
