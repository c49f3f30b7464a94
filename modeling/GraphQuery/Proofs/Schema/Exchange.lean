import GraphQuery.Coercion.Arguments
import GraphQuery.Coercion.Input
import GraphQuery.Selection.Merge

/-! Exchanging the resolvers of a schema. Nothing but the resolution of fields depends
on what they are. -/

namespace GraphQuery

variable {ρ ρ' : Type}

/-! ## Exchanged definitions -/

def FieldDefinition.map (exchange : ρ → ρ') (field : FieldDefinition ρ) : FieldDefinition ρ' where
  name := field.name
  description := field.description
  type := field.type
  arguments := field.arguments
  resolver := field.resolver.map exchange

def Entries.map {α β : Type} (change : α → β) (entries : Entries α) : Entries β :=
  List.map (fun entry => (entry.1, change entry.2)) entries

def ObjectDefinition.map (exchange : ρ → ρ') (object : ObjectDefinition ρ) :
    ObjectDefinition ρ' where
  name := object.name
  description := object.description
  fields := Entries.map (FieldDefinition.map exchange) object.fields
  implements := object.implements

def InterfaceDefinition.map (exchange : ρ → ρ') (interface : InterfaceDefinition ρ) :
    InterfaceDefinition ρ' where
  name := interface.name
  description := interface.description
  fields := Entries.map (FieldDefinition.map exchange) interface.fields
  resolveType := interface.resolveType

def TypeDefinition.map (exchange : ρ → ρ') : TypeDefinition ρ → TypeDefinition ρ'
  | .scalar definition => .scalar definition
  | .enum definition => .enum definition
  | .object definition => .object (definition.map exchange)
  | .interface definition => .interface (definition.map exchange)
  | .union definition => .union definition
  | .inputObject definition => .inputObject definition

def Schema.map (exchange : ρ → ρ') (schema : Schema ρ) : Schema ρ' where
  types := Entries.map (TypeDefinition.map exchange) schema.types
  query := schema.query
  mutation := schema.mutation
  subscription := schema.subscription

namespace Entries

variable {α β : Type}

@[simp] theorem get?_map (change : α → β) (name : String) (entries : Entries α) :
    get? name (map change entries) = (get? name entries).map change := by
  induction entries with
  | nil => rfl
  | cons entry rest induction =>
      rcases entry with ⟨key, value⟩
      simp only [map] at induction
      by_cases same : key = name
      · simp [map, get?, same]
      · simp [map, get?, same, induction]

@[simp] theorem values_map (change : α → β) (entries : Entries α) :
    values (map change entries) = (values entries).map change := by
  simp [values, map]

end Entries

namespace Schema

variable (exchange : ρ → ρ') (schema : Schema ρ)

/-! ## Types -/

@[simp] theorem type?_map (name : String) :
    (schema.map exchange).type? name = (schema.type? name).map (TypeDefinition.map exchange) :=
  Entries.get?_map _ _ _

@[simp] theorem object?_map (name : String) :
    (schema.map exchange).object? name =
      (schema.object? name).map (ObjectDefinition.map exchange) := by
  simp only [object?, type?_map]
  cases schema.type? name with
  | none => rfl
  | some type => cases type <;> rfl

@[simp] theorem root?_map (kind : OperationKind) :
    (schema.map exchange).root? kind = (schema.root? kind).map (ObjectDefinition.map exchange) := by
  cases kind with
  | query => exact object?_map exchange schema schema.query
  | mutation =>
      change schema.mutation.bind _ = (schema.mutation.bind _).map _
      cases schema.mutation with
      | none => rfl
      | some name => exact object?_map exchange schema name
  | subscription =>
      change schema.subscription.bind _ = (schema.subscription.bind _).map _
      cases schema.subscription with
      | none => rfl
      | some name => exact object?_map exchange schema name

@[simp] theorem contribution_map (abstractName : String) (type : TypeDefinition ρ) :
    contribution abstractName (type.map exchange) = contribution abstractName type := by
  cases type <;> rfl

@[simp] theorem possibleTypes_map (abstractName : String) :
    (schema.map exchange).possibleTypes abstractName = schema.possibleTypes abstractName := by
  simp only [possibleTypes, map, Entries.values_map, List.flatMap_map, contribution_map]

@[simp] theorem isPossibleType_map (abstractName objectName : String) :
    (schema.map exchange).isPossibleType abstractName objectName =
      schema.isPossibleType abstractName objectName := by
  simp [isPossibleType]

theorem resolved_map (resolver : Option TypeResolver) (abstractName : String) (value : Json)
    (context : Context) :
    (match resolveTypeName resolver value context with
      | some name =>
          if (schema.map exchange).isPossibleType abstractName name then
            (schema.map exchange).object? name
          else none
      | none => none) =
    (match resolveTypeName resolver value context with
      | some name =>
          if schema.isPossibleType abstractName name then schema.object? name else none
      | none => none).map (ObjectDefinition.map exchange) := by
  cases resolveTypeName resolver value context with
  | none => rfl
  | some name =>
      simp only [isPossibleType_map, object?_map]
      split <;> rfl

@[simp] theorem runtimeType?_map (type : TypeDefinition ρ) (value : Json) (context : Context) :
    (schema.map exchange).runtimeType? (type.map exchange) value context =
      (schema.runtimeType? type value context).map (ObjectDefinition.map exchange) := by
  cases type with
  | interface definition =>
      exact resolved_map exchange schema definition.resolveType definition.name value context
  | union definition =>
      exact resolved_map exchange schema definition.resolveType definition.name value context
  | object definition => exact object?_map exchange schema definition.name
  | scalar definition => rfl
  | enum definition => rfl
  | inputObject definition => rfl

/-! ## Coercion -/

theorem coerceNamed_map (offer : Offer) (name : String) :
    Offer.coerceNamed (schema.map exchange) offer name = Offer.coerceNamed schema offer name := by
  simp only [Offer.coerceNamed, type?_map]
  cases schema.type? name with
  | none => rfl
  | some type => cases type <;> rfl

theorem coerce_map (offer : Offer) :
    Offer.coerce (schema.map exchange) offer = Offer.coerce schema offer := by
  funext type
  induction type with
  | named name => simp only [Offer.coerce, coerceNamed_map]
  | list item induction => simp only [Offer.coerce, induction]
  | nonNull inner induction => simp only [Offer.coerce, induction]

mutual

theorem coerceInput_map : (value : Json) →
    coerceInput (schema.map exchange) value = coerceInput schema value
  | .array items => by simp only [coerceInput, coerce_map, itemCoercers_map items]
  | .object entries => by simp only [coerceInput, coerce_map, entryCoercers_map entries]
  | .null => coerce_map exchange schema _
  | .boolean value => coerce_map exchange schema _
  | .integer value => coerce_map exchange schema _
  | .float value => coerce_map exchange schema _
  | .string value => coerce_map exchange schema _

theorem itemCoercers_map : (items : List Json) →
    itemCoercers (schema.map exchange) items = itemCoercers schema items
  | [] => rfl
  | item :: rest => by simp only [itemCoercers, coerceInput_map item, itemCoercers_map rest]

theorem entryCoercers_map : (entries : List (String × Json)) →
    entryCoercers (schema.map exchange) entries = entryCoercers schema entries
  | [] => rfl
  | (name, value) :: rest => by
      simp only [entryCoercers, coerceInput_map value, entryCoercers_map rest]

end

mutual

theorem coerceLiteral_map (bindings : Variables) : (literal : Literal) →
    coerceLiteral (schema.map exchange) bindings literal = coerceLiteral schema bindings literal
  | .reference name => by simp only [coerceLiteral]
  | .list items => by simp only [coerceLiteral, coerce_map, literalCoercers_map bindings items]
  | .object fields => by simp only [coerceLiteral, coerce_map, fieldCoercers_map bindings fields]
  | .int value => by simp only [coerceLiteral, coerce_map]
  | .float value => by simp only [coerceLiteral, coerce_map]
  | .string value => by simp only [coerceLiteral, coerce_map]
  | .boolean value => by simp only [coerceLiteral, coerce_map]
  | .null => by simp only [coerceLiteral, coerce_map]
  | .symbol name => by simp only [coerceLiteral, coerce_map]

theorem literalCoercers_map (bindings : Variables) : (items : List Literal) →
    literalCoercers (schema.map exchange) bindings items = literalCoercers schema bindings items
  | [] => rfl
  | item :: rest => by
      simp only [literalCoercers, coerceLiteral_map bindings item,
        literalCoercers_map bindings rest]

theorem fieldCoercers_map (bindings : Variables) : (fields : List (Name × Literal)) →
    fieldCoercers (schema.map exchange) bindings fields = fieldCoercers schema bindings fields
  | [] => rfl
  | (name, value) :: rest => by
      simp only [fieldCoercers, coerceLiteral_map bindings value, fieldCoercers_map bindings rest]

end

theorem variableValue_map (type : TypeRef) (default : Option Literal) (given : Option Json) :
    (schema.map exchange).variableValue type default given =
      schema.variableValue type default given := by
  simp only [variableValue, coerceInput_map, coerceLiteral_map]

theorem bindVariable_map (definition : VariableDefinition) (given : Entries Json) :
    (schema.map exchange).bindVariable definition given =
      schema.bindVariable definition given := by
  simp only [bindVariable, type?_map, variableValue_map]
  cases schema.type? definition.type.toTypeRef.base with
  | none => rfl
  | some type => cases type <;> rfl

theorem bindVariables_map (given : Entries Json) (definitions : List VariableDefinition)
    (bindings : Variables) :
    (schema.map exchange).bindVariables given definitions bindings =
      schema.bindVariables given definitions bindings := by
  induction definitions generalizing bindings with
  | nil => rfl
  | cons definition rest induction => simp only [bindVariables, bindVariable_map, induction]

@[simp] theorem coerceVariables_map (definitions : List VariableDefinition)
    (given : Entries Json) :
    (schema.map exchange).coerceVariables definitions given =
      schema.coerceVariables definitions given :=
  bindVariables_map exchange schema given definitions []

theorem coerceArgument_map (field : String) (bindings : Variables) (declared : InputDefinition)
    (given : Option Argument) :
    (schema.map exchange).coerceArgument field bindings declared given =
      schema.coerceArgument field bindings declared given := by
  simp only [coerceArgument, coerceLiteral_map]

theorem coerceDeclared_map (field : String) (bindings : Variables) (given : List Argument)
    (declared : List InputDefinition) :
    (schema.map exchange).coerceDeclared field bindings given declared =
      schema.coerceDeclared field bindings given declared := by
  induction declared with
  | nil => rfl
  | cons first rest induction => simp only [coerceDeclared, coerceArgument_map, induction]

@[simp] theorem coerceArguments_map (field : FieldDefinition ρ) (given : List Argument)
    (bindings : Variables) :
    (schema.map exchange).coerceArguments (field.map exchange) given bindings =
      schema.coerceArguments field given bindings := by
  simp only [coerceArguments, coerceDeclared_map]
  rfl

end Schema

/-! ## Selections -/

namespace Expansion

variable (exchange : ρ → ρ') (expansion : Expansion ρ)

def map : Expansion ρ' where
  schema := expansion.schema.map exchange
  object := expansion.object.map exchange
  fragments := expansion.fragments
  bindings := expansion.bindings

@[simp] theorem applies_map (condition : Option Name) :
    (expansion.map exchange).applies condition = expansion.applies condition := by
  cases condition with
  | none => rfl
  | some name => simp [applies, map, ObjectDefinition.map]

variable {entered : List String}
  {body : FragmentDefinition → Collected → Except SelectionFault Collected}

mutual

theorem collectAll_map : (selections : List Selection) → (collected : Collected) →
    collectAll (expansion.map exchange) entered body selections collected =
      collectAll expansion entered body selections collected
  | [], collected => rfl
  | selection :: rest, collected => by
      simp only [collectAll, collectOne_map selection, collectAll_map rest]

theorem collectOne_map : (selection : Selection) → (collected : Collected) →
    collectOne (expansion.map exchange) entered body selection collected =
      collectOne expansion entered body selection collected
  | .leaf head, collected => rfl
  | .branch head selections braces, collected => rfl
  | .inline head selections braces, collected => by
      simp only [collectOne, applies_map, collectAll_map selections]
      rfl
  | .spread node, collected => by
      simp only [collectOne, applies_map]
      rfl

end

theorem collectBody_map (levels : Nat) :
    collectBody (expansion.map exchange) levels = collectBody expansion levels := by
  induction levels with
  | zero => rfl
  | succ levels induction =>
      funext entered fragment collected
      simp only [collectBody, collectAll_map, induction]

theorem collectSets_map (sets : List SelectionSet) (collected : Collected) :
    collectSets (expansion.map exchange) sets collected = collectSets expansion sets collected := by
  induction sets generalizing collected with
  | nil => rfl
  | cons set rest induction =>
      simp only [collectSets, collectAll_map, collectBody_map, induction]
      rfl

@[simp] theorem merge_map (sets : List SelectionSet) :
    (expansion.map exchange).merge sets = expansion.merge sets := by
  simp only [merge, collectSets_map]

end Expansion

end GraphQuery
