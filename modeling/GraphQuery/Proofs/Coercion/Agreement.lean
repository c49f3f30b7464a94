import GraphQuery.Coercion.Variables
import GraphQuery.Proofs.Success

/-! A constant and its JSON form are coerced to the same value. -/

namespace GraphQuery

variable {ρ : Type} {schema : Schema ρ} {bindings : Variables}

/-! ## What is said twice -/

/-- A literal without variables, whose doubles are finite and whose objects give no key
twice. -/
inductive Literal.IsConstant : Literal → Prop where
  | int (value : Int) : IsConstant (.int value)
  | float {value : Binary64} (finite : value.isFinite = true) : IsConstant (.float value)
  | string (value : String) : IsConstant (.string value)
  | boolean (value : Bool) : IsConstant (.boolean value)
  | null : IsConstant .null
  | symbol (name : String) : IsConstant (.symbol name)
  | list {items : List Literal} (all : ∀ item ∈ items, IsConstant item) : IsConstant (.list items)
  | object {fields : List (Name × Literal)}
      (distinct : (fields.map fun field => field.1.text).Nodup)
      (all : ∀ field ∈ fields, IsConstant field.2) : IsConstant (.object fields)

/-- Somewhere in a literal for a type, a quoted string stands where an enum is expected. -/
inductive Schema.QuotesSymbol (schema : Schema ρ) : TypeRef → Literal → Prop where
  | here {name : String} {enum : EnumDefinition} {text : String}
      (found : schema.type? name = some (.enum enum)) :
      QuotesSymbol schema (.named name) (.string text)
  | nonNull {inner : TypeRef} {literal : Literal} (quotes : QuotesSymbol schema inner literal) :
      QuotesSymbol schema (.nonNull inner) literal
  | item {type : TypeRef} {items : List Literal} {item : Literal} (member : item ∈ items)
      (quotes : QuotesSymbol schema type item) : QuotesSymbol schema (.list type) (.list items)
  | only {type : TypeRef} {literal : Literal} (single : ∀ items, literal ≠ .list items)
      (quotes : QuotesSymbol schema type literal) : QuotesSymbol schema (.list type) literal
  | field {name : String} {input : InputObjectDefinition} {fields : List (Name × Literal)}
      {field : Name × Literal} {declared : InputDefinition}
      (found : schema.type? name = some (.inputObject input))
      (isDeclared : declared ∈ input.fields.values) (member : field ∈ fields)
      (named : field.1.text = declared.name)
      (quotes : QuotesSymbol schema declared.type field.2) :
      QuotesSymbol schema (.named name) (.object fields)

/-! ## Coercers that agree -/

/-- At a type, two coercers give the same value or both refuse. -/
def Coercer.AgreeAt (type : TypeRef) (first second : Coercer) : Prop :=
  (first type).toOption = (second type).toOption

/-! ## Offers of the same value -/

namespace Offer

abbrev AgreeOn (declared : List InputDefinition) (provided others : List (String × Coercer)) :
    Prop :=
  List.Forall₂ (fun field other => field.1 = other.1 ∧
    ∀ definition ∈ declared, field.1 = definition.name →
      Coercer.AgreeAt definition.type field.2 other.2) provided others

variable {declared : List InputDefinition} {provided others : List (String × Coercer)}

theorem AgreeOn.names_eq (agree : AgreeOn declared provided others) :
    provided.map Prod.fst = others.map Prod.fst := by
  induction agree with
  | nil => rfl
  | cons same _ induction => rw [List.map_cons, List.map_cons, same.1, induction]

theorem AgreeOn.coerceField (agree : AgreeOn declared provided others) (owner : String)
    {definition : InputDefinition} (member : definition ∈ declared) :
    (coerceField owner definition provided).toOption =
      (coerceField owner definition others).toOption := by
  induction agree with
  | nil => rfl
  | @cons field other provided others same _ induction =>
      by_cases named : field.1 = definition.name
      · have first := same.2 definition member named
        simp only [Offer.coerceField, field?, List.find?_cons, ← same.1, named, beq_self_eq_true,
          Option.map_some, Except.toOption_map]
        rw [first]
      · have skipped : (field.1 == definition.name) = false := beq_eq_false_iff_ne.mpr named
        simpa only [Offer.coerceField, field?, List.find?_cons, ← same.1, skipped] using induction

theorem agree_coerceFields {owner : String} {definitions : List InputDefinition}
    (agree : ∀ definition ∈ definitions, (Offer.coerceField owner definition provided).toOption =
      (Offer.coerceField owner definition others).toOption) :
    (coerceFields owner provided definitions).toOption =
      (coerceFields owner others definitions).toOption := by
  induction definitions with
  | nil => rfl
  | cons definition rest induction =>
      rcases List.forall_mem_cons.mp agree with ⟨first, agree⟩
      simp only [Offer.coerceFields, Except.toOption_bind, first, induction agree]

theorem toOption_coerceObject (input : InputObjectDefinition)
    (provided : List (String × Coercer)) :
    (coerceObject input provided).toOption =
      if ∀ key ∈ provided.map Prod.fst, key ∈ Entries.names input.fields then
        (coerceFields input.name provided input.fields.values).toOption.map .object
      else none := by
  have allKnown : (provided.find? fun field => !Entries.contains field.1 input.fields) = none ↔
      ∀ key ∈ provided.map Prod.fst, key ∈ Entries.names input.fields := by
    simp [Entries.contains_iff]
  simp only [← allKnown]
  unfold coerceObject
  cases provided.find? fun field => !Entries.contains field.1 input.fields with
  | some unknown => rfl
  | none => simp only [Except.toOption_map, if_true]

theorem agree_coerceObject {input : InputObjectDefinition}
    (keys : ∀ key, key ∈ provided.map Prod.fst ↔ key ∈ others.map Prod.fst)
    (agree : ∀ definition ∈ input.fields.values,
      (Offer.coerceField input.name definition provided).toOption =
        (Offer.coerceField input.name definition others).toOption) :
    (coerceObject input provided).toOption = (coerceObject input others).toOption := by
  simp only [toOption_coerceObject, keys, agree_coerceFields agree]

theorem AgreeOn.coerceObject {input : InputObjectDefinition}
    (agree : AgreeOn input.fields.values provided others) :
    (coerceObject input provided).toOption = (coerceObject input others).toOption :=
  agree_coerceObject (fun _ => by rw [agree.names_eq])
    fun _ member => agree.coerceField input.name member

variable {first second : Offer} {name : String}

theorem agree_coerceNamed (plain : first.plain = second.plain)
    (symbol : ∀ {enum}, schema.type? name = some (.enum enum) →
      (first.symbol enum).toOption = (second.symbol enum).toOption)
    (fields : ∀ {input}, schema.type? name = some (.inputObject input) →
      (first.fields = none ∧ second.fields = none) ∨
        ∃ provided others, first.fields = some provided ∧ second.fields = some others ∧
          AgreeOn input.fields.values provided others) :
    (coerceNamed schema first name).toOption = (coerceNamed schema second name).toOption := by
  unfold coerceNamed
  split
  · rw [plain]
  · rename_i enum found
    exact symbol found
  · rename_i input found
    rcases fields found with ⟨neither, nor⟩ | ⟨provided, others, given, alsoGiven, agree⟩
    · rw [neither, nor]
      rfl
    · rw [given, alsoGiven]
      exact agree.coerceObject
  · rfl
  · rfl

/-- Offers agree at a type if they agree at the named types and at the types of items that
it leads to. -/
theorem agree_coerce (leadsTo : TypeRef → Prop) (isNull : first.isNull = second.isNull)
    (inner : ∀ {type}, leadsTo (.nonNull type) → leadsTo type)
    (items : ∀ {item}, leadsTo (.list item) →
      (first.items = none ∧ second.items = none ∧ leadsTo item) ∨
        ∃ coercers others, first.items = some coercers ∧ second.items = some others ∧
          List.Forall₂ (Coercer.AgreeAt item) coercers others)
    (named : ∀ {name}, leadsTo (.named name) →
      (coerceNamed schema first name).toOption = (coerceNamed schema second name).toOption)
    {type : TypeRef} (led : leadsTo type) :
    Coercer.AgreeAt type (first.coerce schema) (second.coerce schema) := by
  induction type with
  | named name =>
      simp only [Coercer.AgreeAt, coerce, isNull]
      split
      · rfl
      · exact named led
  | list item induction =>
      simp only [Coercer.AgreeAt, coerce, isNull]
      split
      · rfl
      · rcases items led with ⟨neither, nor, led⟩ | ⟨coercers, others, given, alsoGiven, agree⟩
        · rw [neither, nor]
          simp only [Except.toOption_map]
          rw [induction led]
        · rw [given, alsoGiven]
          simp only [Except.toOption_map]
          rw [Except.toOption_mapM agree]
  | nonNull type induction =>
      simp only [Coercer.AgreeAt, coerce, isNull]
      split
      · rfl
      · exact induction (inner led)

theorem agree_symbol {literal : Literal} (constant : literal.IsConstant)
    (unquoted : ∀ text, literal ≠ .string text) (enum : EnumDefinition) :
    (symbolOfLiteral literal enum).toOption =
      (enum.coerceInput (literal.toJson bindings)).toOption := by
  cases constant with
  | string value => exact absurd rfl (unquoted value)
  | float finite => simp [Literal.toJson, Json.ofFloat, finite, symbolOfLiteral,
      EnumDefinition.coerceInput, Except.toOption]
  | _ => rfl

end Offer

theorem Literal.IsConstant.isNull_toJson {literal : Literal} (constant : literal.IsConstant) :
    (literal.toJson bindings).isNull = literal.isNull := by
  cases constant with
  | float finite => simp [Literal.toJson, Json.ofFloat, finite, Json.isNull, Literal.isNull]
  | _ => rfl

/-! ## Lists and objects -/

theorem Literal.itemsToJson_eq_map (items : List Literal) :
    itemsToJson bindings items = items.map (toJson bindings) := by
  induction items with
  | nil => rfl
  | cons item rest induction => rw [itemsToJson, induction, List.map_cons]

theorem Literal.fieldsToJson_eq_append {fields : List (Name × Literal)} {collected : Entries Json}
    (distinct : (collected.names ++ fields.map fun field => field.1.text).Nodup) :
    fieldsToJson bindings collected fields =
      collected ++ fields.map fun field => (field.1.text, toJson bindings field.2) := by
  induction fields generalizing collected with
  | nil => simp [fieldsToJson]
  | cons field rest induction =>
      have fresh : field.1.text ∉ Entries.names collected := fun member =>
        (List.nodup_append.mp distinct).2.2 _ member _ (by simp) rfl
      rw [fieldsToJson, Entries.insert_of_not_mem fresh, induction]
      · simp
      · simpa [Entries.names] using distinct

namespace Schema

theorem itemCoercers_eq_map (items : List Json) :
    schema.itemCoercers items = items.map schema.coerceInput := by
  induction items with
  | nil => rfl
  | cons item rest induction => rw [itemCoercers, induction, List.map_cons]

theorem entryCoercers_eq_map (entries : List (String × Json)) :
    schema.entryCoercers entries =
      entries.map fun entry => (entry.1, schema.coerceInput entry.2) := by
  induction entries with
  | nil => rfl
  | cons entry rest induction => rw [entryCoercers, induction, List.map_cons]

theorem literalCoercers_eq_map (items : List Literal) :
    schema.literalCoercers bindings items = items.map (schema.coerceLiteral bindings) := by
  induction items with
  | nil => rfl
  | cons item rest induction => rw [literalCoercers, induction, List.map_cons]

theorem fieldCoercers_eq_map (fields : List (Name × Literal)) :
    schema.fieldCoercers bindings fields =
      fields.map fun field => (field.1.text, schema.coerceLiteral bindings field.2) := by
  induction fields with
  | nil => rfl
  | cons field rest induction => rw [fieldCoercers, induction, List.map_cons]

theorem agree_atom {literal : Literal} (constant : literal.IsConstant)
    (noItems : ∀ items, literal ≠ .list items) {type : TypeRef}
    (unquoted : ¬ schema.QuotesSymbol type literal) :
    Coercer.AgreeAt type ((Offer.ofLiteral bindings literal none none).coerce schema)
      ((Offer.ofJson (literal.toJson bindings) none none).coerce schema) := by
  refine Offer.agree_coerce (fun type => ¬ schema.QuotesSymbol type literal)
    constant.isNull_toJson.symm (fun led quotes => led (.nonNull quotes))
    (fun led => .inl ⟨rfl, rfl, fun quotes => led (.only noItems quotes)⟩) ?_ unquoted
  intro name led
  refine Offer.agree_coerceNamed rfl (fun found => ?_) fun _ => .inl ⟨rfl, rfl⟩
  refine Offer.agree_symbol constant ?_ _
  rintro text rfl
  exact led (.here found)

/-- Coercing a literal and its JSON form comes to the same at every type, unless a string is
quoted where an enum takes a symbol. -/
def Agrees (schema : Schema ρ) (bindings : Variables) (literal : Literal) : Prop :=
  ∀ type, ¬ schema.QuotesSymbol type literal →
    Coercer.AgreeAt type (schema.coerceLiteral bindings literal)
      (schema.coerceInput (literal.toJson bindings))

theorem agrees_float {value : Binary64} (finite : value.isFinite = true) :
    schema.Agrees bindings (.float value) := by
  intro type unquoted
  have same : (Literal.float value).toJson bindings = .float value := by
    simp [Literal.toJson, Json.ofFloat, finite]
  have agree : Coercer.AgreeAt type (schema.coerceLiteral bindings (.float value))
      ((Offer.ofJson ((Literal.float value).toJson bindings) none none).coerce schema) :=
    agree_atom (.float finite) (by simp) unquoted
  rwa [same] at agree ⊢

theorem agrees_list {items : List Literal} (all : ∀ item ∈ items, schema.Agrees bindings item) :
    schema.Agrees bindings (.list items) := by
  intro type unquoted
  rw [coerceLiteral, Literal.toJson, coerceInput, literalCoercers_eq_map,
    Literal.itemsToJson_eq_map, itemCoercers_eq_map, List.map_map]
  refine Offer.agree_coerce (fun type => ¬ schema.QuotesSymbol type (.list items)) ?_
    (fun led quotes => led (.nonNull quotes)) ?_ ?_ unquoted
  · rfl
  · intro type led
    refine .inr ⟨_, _, rfl, rfl, ?_⟩
    rw [List.forall₂_map_left_iff, List.forall₂_map_right_iff, List.forall₂_same]
    exact fun item member => all item member type fun quotes => led (.item member quotes)
  · intro name _
    refine Offer.agree_coerceNamed ?_ (fun _ => rfl) fun _ => .inl ⟨rfl, rfl⟩
    simp [Offer.ofLiteral, Offer.ofJson, Literal.toJson, Literal.itemsToJson_eq_map]

theorem agrees_object {fields : List (Name × Literal)}
    (distinct : (fields.map fun field => field.1.text).Nodup)
    (all : ∀ field ∈ fields, schema.Agrees bindings field.2) :
    schema.Agrees bindings (.object fields) := by
  intro type unquoted
  have same : (Literal.object fields).toJson bindings =
      .object (fields.map fun field => (field.1.text, field.2.toJson bindings)) := by
    rw [Literal.toJson, Literal.fieldsToJson_eq_append (by simpa [Entries.names] using distinct),
      List.nil_append]
  rw [coerceLiteral, same, coerceInput, fieldCoercers_eq_map, entryCoercers_eq_map, List.map_map]
  refine Offer.agree_coerce (fun type => ¬ schema.QuotesSymbol type (.object fields)) ?_
    (fun led quotes => led (.nonNull quotes)) ?_ ?_ unquoted
  · rfl
  · exact fun led => .inl ⟨rfl, rfl, fun quotes => led (.only (by simp) quotes)⟩
  · intro name led
    refine Offer.agree_coerceNamed same (fun _ => rfl) fun found => .inr ⟨_, _, rfl, rfl, ?_⟩
    rw [Offer.AgreeOn, List.forall₂_map_left_iff, List.forall₂_map_right_iff, List.forall₂_same]
    intro field member
    refine ⟨rfl, fun definition isDeclared named => ?_⟩
    exact all field member _ fun quotes => led (.field found isDeclared member named quotes)

theorem agrees_of_isConstant {literal : Literal} (constant : literal.IsConstant) :
    schema.Agrees bindings literal := by
  induction constant with
  | int value => exact fun type => agree_atom (.int value) (by simp)
  | float finite => exact agrees_float finite
  | string value => exact fun type => agree_atom (.string value) (by simp)
  | boolean value => exact fun type => agree_atom (.boolean value) (by simp)
  | null => exact fun type => agree_atom .null (by simp)
  | symbol name => exact fun type => agree_atom (.symbol name) (by simp)
  | list _ induction => exact agrees_list induction
  | object distinct _ induction => exact agrees_object distinct induction

end Schema

end GraphQuery
