import GraphQuery.Proofs.Coercion.InputTypes
import GraphQuery.Proofs.Execution.Objects

/-! Whenever a schema has been built, the types that coercion and execution look up are
there and play the roles that they are wanted for. -/

namespace GraphQuery

/-! ## Output -/

section Output

variable {σ : Type} {schema : Schema (Resolver σ)} {configuration : Configuration}
  {document : Document} {request : Request} {context : Context} {state : σ} {report : Report σ}

theorem Schema.FindsObject.hasObject {type : TypeRef} {value found : Json} {positions : List Nat}
    {object : ObjectDefinition (Resolver σ)}
    (finds : schema.FindsObject context type value positions object found) :
    schema.HasObject object := by
  induction finds with
  | nonNull _ induction => exact induction
  | item _ _ induction => exact induction
  | @object name object value _ isObject => exact ⟨name, object?_eq_some_iff.mpr isObject⟩
  | abstract _ _ _ resolved => exact hasObject_of_runtimeType? resolved

theorem Preparation.Enters.hasObject {preparation : Preparation σ} {rootValue : Json}
    (root : preparation.execution.schema.HasObject preparation.root) {place : Path}
    {object : ObjectDefinition (Resolver σ)} {value : Json} {fields : FieldMap}
    (enters : preparation.Enters rootValue place object value fields) :
    preparation.execution.schema.HasObject object := by
  cases enters with
  | root => exact root
  | inside _ _ finds _ =>
      cases finds with
      | intro _ _ _ found => exact found.hasObject

theorem Schema.MayReport.ne_notOutputType (refers : schema.RefersWell)
    (reports : schema.MayReport configuration document request context state report)
    {fault : FieldFault} (happened : Event.failed fault ∈ report.session.events)
    (type field : String) : fault.cause ≠ .notOutputType type field := by
  intro isOutput
  rcases reports.governed with nothing | ⟨preparation, prepared, governs⟩
  · rw [nothing] at happened
    cases happened
  · obtain ⟨plan, planned, rfl⟩ := exists_plan_of_prepare prepared
    have root : schema.HasObject plan.root := hasObject_of_root (answers_of_plan planned).root
    cases governs.allows_of_mem happened with
    | failed _ _ _ types =>
        obtain ⟨object, _, _, field, enters, defined, lacks⟩ := types type _ isOutput
        obtain ⟨name, known⟩ := enters.hasObject root
        have member : field ∈ object.fields.values :=
          List.mem_map.mpr ⟨_, Entries.mem_of_get? defined, rfl⟩
        exact lacks (refers.outputs (object?_eq_some_iff.mp known) rfl field member)

end Output

/-! ## Input -/

section Input

variable {ρ : Type}

/-- A type that values are coerced to: that of a declared argument, of a field of an input
object, or of a variable that is accepted. -/
inductive Schema.CoercesTo (schema : Schema ρ) : TypeRef → Prop where
  | argument {name : String} {type : TypeDefinition ρ} {fields : Entries (FieldDefinition ρ)}
      {field : FieldDefinition ρ} {argument : InputDefinition}
      (found : schema.type? name = some type) (ofType : type.fields? = some fields)
      (member : field ∈ fields.values) (declared : argument ∈ field.arguments.values) :
      CoercesTo schema argument.type
  | inputField {name : String} {input : InputObjectDefinition} {field : InputDefinition}
      (found : schema.type? name = some (.inputObject input))
      (declared : field ∈ input.fields.values) : CoercesTo schema field.type
  | accepted {definition : VariableDefinition} {target : TypeDefinition ρ}
      (found : schema.type? definition.type.toTypeRef.base = some target)
      (isInput : target.isInput = true) : CoercesTo schema definition.type.toTypeRef

theorem Schema.CoercesTo.plays {schema : Schema ρ} (refers : schema.RefersWell) {type : TypeRef}
    (coerces : schema.CoercesTo type) : schema.Plays TypeDefinition.isInput type := by
  cases coerces with
  | argument found ofType member declared =>
      exact refers.arguments found ofType _ member _ declared
  | inputField found declared => exact refers.inputFields found _ declared
  | accepted found isInput => exact ⟨_, found, isInput⟩

end Input

/-! ## Interfaces and unions -/

section Abstract

variable {ρ : Type} {schema : Schema ρ}

/-- How an interface or a union itself tells the type of a value. -/
def TypeDefinition.resolveType? : TypeDefinition ρ → Option TypeResolver
  | .interface definition => definition.resolveType
  | .union definition => definition.resolveType
  | _ => none

namespace Schema

theorem runtimeType?_of_isAbstract {type : TypeDefinition ρ} (isAbstract : type.isAbstract = true)
    (value : Json) (context : Context) :
    schema.runtimeType? type value context =
      (resolveTypeName type.resolveType? value context).bind fun name =>
        if name ∈ schema.possibleTypes type.name then schema.object? name else none := by
  cases type with
  | interface definition =>
      simp only [runtimeType?, isPossibleType, TypeDefinition.resolveType?, TypeDefinition.name,
        List.contains_iff_mem]
      cases resolveTypeName definition.resolveType value context <;> rfl
  | union definition =>
      simp only [runtimeType?, isPossibleType, TypeDefinition.resolveType?, TypeDefinition.name,
        List.contains_iff_mem]
      cases resolveTypeName definition.resolveType value context <;> rfl
  | _ => cases isAbstract

theorem runtimeType?_eq_some_iff {type : TypeDefinition ρ} (isAbstract : type.isAbstract = true)
    {value : Json} {context : Context} {object : ObjectDefinition ρ} :
    schema.runtimeType? type value context = some object ↔
      ∃ name ∈ schema.possibleTypes type.name,
        resolveTypeName type.resolveType? value context = some name ∧
          schema.type? name = some (.object object) := by
  rw [runtimeType?_of_isAbstract isAbstract, Option.bind_eq_some_iff]
  constructor
  · rintro ⟨name, resolved, found⟩
    split at found
    · rename_i possible
      exact ⟨name, possible, resolved, object?_eq_some_iff.mp found⟩
    · cases found
  · rintro ⟨name, possible, resolved, found⟩
    refine ⟨name, resolved, ?_⟩
    rw [if_pos possible]
    exact object?_eq_some_iff.mpr found

theorem IsBuilt.isSome_runtimeType? (built : schema.IsBuilt) {type : TypeDefinition ρ}
    (isAbstract : type.isAbstract = true) {value : Json} {context : Context} :
    (schema.runtimeType? type value context).isSome = true ↔
      ∃ name ∈ schema.possibleTypes type.name,
        resolveTypeName type.resolveType? value context = some name := by
  rw [Option.isSome_iff_exists]
  constructor
  · rintro ⟨object, found⟩
    obtain ⟨name, possible, resolved, _⟩ := (runtimeType?_eq_some_iff isAbstract).mp found
    exact ⟨name, possible, resolved⟩
  · rintro ⟨name, possible, resolved⟩
    obtain ⟨object, known⟩ := built.object?_of_possible possible
    exact ⟨object, (runtimeType?_eq_some_iff isAbstract).mpr
      ⟨name, possible, resolved, object?_eq_some_iff.mp known⟩⟩

end Schema

end Abstract

/-! ## Built schemas -/

/-- Where a schema has been built, no type that is looked up is missing or out of its role:
not by completion, whatever the request and the resolvers, and not by coercion, unless a
scalar says so for reasons of its own; every root that was given is there, and what an
interface or a union finds is the object type of that name, if it is a possible one. -/
theorem Schema.types_are_found {σ : Type} {builder : SchemaBuilder (Resolver σ)}
    {schema : Schema (Resolver σ)} (assembled : builder.Assembled)
    (built : builder.build = .ok schema) :
    (∀ configuration document request context state report,
      schema.MayReport configuration document request context state report →
        ∀ fault, Event.failed fault ∈ report.session.events →
          ∀ type field, fault.cause ≠ .notOutputType type field) ∧
    (∀ type, schema.CoercesTo type → ∀ fault, fault.isOfType = true →
      (∀ value, schema.coerceInput value type = .error fault → schema.ScalarRefuses fault) ∧
      ∀ bindings literal, schema.coerceLiteral bindings literal type = .error fault →
        schema.ScalarRefuses fault) ∧
    (∀ kind name, builder.rootName? kind = some name →
      ∃ object, schema.type? name = some (.object object) ∧ schema.root? kind = some object) ∧
    ∀ type, type.isAbstract = true → ∀ value context,
      ((schema.runtimeType? type value context).isSome = true ↔
        ∃ name ∈ schema.possibleTypes type.name,
          resolveTypeName type.resolveType? value context = some name) ∧
      ∀ object, schema.runtimeType? type value context = some object →
        ∃ name, resolveTypeName type.resolveType? value context = some name ∧
          schema.type? name = some (.object object) := by
  have isBuilt : schema.IsBuilt := ⟨builder, assembled, built⟩
  have refers := isBuilt.refersWell
  refine ⟨?_, ?_, fun _ _ named => root?_of_build built named, ?_⟩
  · intro configuration document request context state report reports fault happened
    exact reports.ne_notOutputType refers happened
  · intro type coerces fault ofType
    have plays := coerces.plays refers
    exact ⟨fun value failed => finds_coerceInput refers value plays failed ofType,
      fun bindings literal failed => finds_coerceLiteral refers literal plays failed ofType⟩
  · intro type isAbstract value context
    refine ⟨isBuilt.isSome_runtimeType? isAbstract, fun object found => ?_⟩
    obtain ⟨name, _, resolved, known⟩ := (runtimeType?_eq_some_iff isAbstract).mp found
    exact ⟨name, resolved, known⟩

/-! ## A larder -/

namespace Larder

variable {ρ : Type}

def fatContent : FieldDefinition ρ where
  name := "fatContent"
  description := none
  type := .named "Float"
  arguments := []
  resolver := none

def edible : InterfaceDefinition ρ where
  name := "Edible"
  description := none
  fields := [("fatContent", fatContent)]
  resolveType := none

def cheese : ObjectDefinition ρ where
  name := "Cheese"
  description := none
  fields := [("fatContent", fatContent)]
  implements := ["Edible"]

def ripeness : InputDefinition := ⟨"ripeness", none, .nonNull (.named "Int"), none⟩

def query (resolver : ρ) : ObjectDefinition ρ where
  name := "Query"
  description := none
  fields := [("product", ⟨"product", none, .named "Edible", [("ripeness", ripeness)],
    some resolver⟩)]
  implements := []

def builder (resolver : ρ) : SchemaBuilder ρ :=
  (((SchemaBuilder.initial.add (.interface edible)).add (.object cheese)).add
    (.object (query resolver))).withRoot .query "Query"

def schema (resolver : ρ) : Schema ρ where
  types := (builder resolver).types
  query := "Query"
  mutation := none
  subscription := none

def ripe : Json := .object [("__typename", .string "Cheese"), ("fatContent", .integer 50)]

theorem assembled (resolver : ρ) : (builder resolver).Assembled :=
  .withRoot .query "Query" (.add _ (.add _ (.add _ .initial)))

theorem build_builder (resolver : ρ) : (builder resolver).build = .ok (schema resolver) :=
  rfl

def shelves : Resolver Unit := .pure fun _ => .ok ripe

/-- A ripe cheese is found to be one, ripeness is asked for as a number, and no request finds
a product without a type. -/
theorem cheese_is_found :
    (∀ document request, ∀ fault,
      Event.failed fault ∈ ((schema shelves).executeDocument .standard document request []
        ()).session.events → ∀ type field, fault.cause ≠ .notOutputType type field) ∧
    (∀ bindings literal fault, fault.isOfType = true →
      (schema shelves).coerceLiteral bindings literal (.nonNull (.named "Int")) = .error fault →
        (schema shelves).ScalarRefuses fault) ∧
    (∃ object, (schema shelves).root? .query = some object) ∧
    ((schema shelves).runtimeType? (.interface edible) ripe []).isSome = true := by
  have found := Schema.types_are_found (assembled shelves) (build_builder shelves)
  refine ⟨?_, ?_, ?_, ?_⟩
  · intro document request
    exact found.1 _ _ _ _ _ _ (Schema.mayReport_executeDocument _ _ document request [] ())
  · intro bindings literal fault ofType
    have known : (schema shelves).type? "Query" = some (.object (query shelves)) := rfl
    have coerces : (schema shelves).CoercesTo ripeness.type :=
      .argument known rfl (List.mem_singleton_self _) (List.mem_singleton_self _)
    exact (found.2.1 _ coerces fault ofType).2 bindings literal
  · obtain ⟨object, _, root⟩ := found.2.2.1 .query "Query" rfl
    exact ⟨object, root⟩
  · have abstractly := found.2.2.2 (.interface edible) rfl ripe []
    exact abstractly.1.mpr ⟨"Cheese", by decide, rfl⟩

end Larder

end GraphQuery
