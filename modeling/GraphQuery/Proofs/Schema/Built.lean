import GraphQuery.Proofs.Success
import GraphQuery.Schema.Builder

/-! Schemas that come from a builder. -/

namespace GraphQuery

variable {ρ : Type}

/-- What definitions and roots can be put together. -/
inductive SchemaBuilder.Assembled : SchemaBuilder ρ → Prop where
  | initial : Assembled .initial
  | add {builder : SchemaBuilder ρ} (type : TypeDefinition ρ) (assembled : Assembled builder) :
      Assembled (builder.add type)
  | withRoot {builder : SchemaBuilder ρ} (operation : OperationKind) (name : String)
      (assembled : Assembled builder) : Assembled (builder.withRoot operation name)

/-- A schema that a builder has accepted. -/
def Schema.IsBuilt (schema : Schema ρ) : Prop :=
  ∃ builder : SchemaBuilder ρ, builder.Assembled ∧ builder.build = .ok schema

def TypeDefinition.NamesAgree (types : Entries (TypeDefinition ρ)) : Prop :=
  ∀ {name type}, Entries.get? name types = some type → type.name = name

namespace SchemaBuilder

variable {builder : SchemaBuilder ρ}

theorem namesAgree_insert {types : Entries (TypeDefinition ρ)}
    (agree : TypeDefinition.NamesAgree types) (type : TypeDefinition ρ) :
    TypeDefinition.NamesAgree (Entries.insert type.name type types) := by
  intro name other found
  by_cases same : type.name = name
  · subst same
    rw [Entries.get?_insert_self, Option.some.injEq] at found
    rw [found]
  · rw [Entries.get?_insert_of_ne same] at found
    exact agree found

theorem Assembled.namesAgree (assembled : builder.Assembled) :
    TypeDefinition.NamesAgree builder.types := by
  induction assembled with
  | initial =>
      intro name type found
      have member := Entries.mem_of_get? found
      simp only [SchemaBuilder.initial, List.mem_map, Prod.mk.injEq] at member
      rcases member with ⟨scalar, _, rfl, rfl⟩
      rfl
  | add type _ induction =>
      unfold SchemaBuilder.add
      split
      · exact namesAgree_insert induction type
      · split
        · exact induction
        · exact namesAgree_insert induction type
  | withRoot operation name _ induction =>
      cases operation <;> exact induction

theorem types_eq_of_build {schema : Schema ρ} (built : builder.build = .ok schema) :
    schema.types = builder.types := by
  simp only [build] at built
  split at built
  · cases built
  · split at built
    · cases built
    · rcases Except.exists_of_bind built with ⟨_, _, built⟩
      rcases Except.exists_of_bind built with ⟨_, _, built⟩
      rcases Except.exists_of_bind built with ⟨_, _, built⟩
      rcases Except.exists_of_bind built with ⟨_, _, built⟩
      cases built
      rfl

end SchemaBuilder

theorem Schema.IsBuilt.name_eq {schema : Schema ρ} (built : schema.IsBuilt) {name : String}
    {type : TypeDefinition ρ} (found : schema.type? name = some type) : type.name = name := by
  rcases built with ⟨builder, assembled, built⟩
  rw [type?, SchemaBuilder.types_eq_of_build built] at found
  exact assembled.namesAgree found

theorem Schema.object?_eq_some_iff {schema : Schema ρ} {name : String}
    {object : ObjectDefinition ρ} :
    schema.object? name = some object ↔ schema.type? name = some (.object object) := by
  unfold object?
  split
  · rename_i definition found
    simp [found]
  · rename_i other
    constructor
    · rintro ⟨⟩
    · intro found
      exact absurd found (other object)

theorem Schema.IsBuilt.object_name_eq {schema : Schema ρ} (built : schema.IsBuilt)
    {name : String} {object : ObjectDefinition ρ} (found : schema.object? name = some object) :
    object.name = name :=
  built.name_eq (object?_eq_some_iff.mp found)

/-! ## Object types -/

namespace Schema

variable {schema : Schema ρ} {object : ObjectDefinition ρ}

def HasObject (schema : Schema ρ) (object : ObjectDefinition ρ) : Prop :=
  ∃ name, schema.object? name = some object

theorem hasObject_of_resolved {resolver : Option TypeResolver} {abstractName : String}
    {value : Json} {context : Context}
    (resolved : (match resolveTypeName resolver value context with
      | some name =>
          if schema.isPossibleType abstractName name then schema.object? name else none
      | none => none) = some object) : schema.HasObject object := by
  split at resolved
  · split at resolved
    · exact ⟨_, resolved⟩
    · cases resolved
  · cases resolved

theorem hasObject_of_runtimeType? {type : TypeDefinition ρ} {value : Json} {context : Context}
    (resolved : schema.runtimeType? type value context = some object) :
    schema.HasObject object := by
  cases type with
  | interface definition => exact hasObject_of_resolved resolved
  | union definition => exact hasObject_of_resolved resolved
  | object definition => exact ⟨_, resolved⟩
  | _ => cases resolved

theorem hasObject_of_root {kind : OperationKind} (found : schema.root? kind = some object) :
    schema.HasObject object := by
  cases kind with
  | query => exact ⟨_, found⟩
  | mutation =>
      rcases Option.bind_eq_some_iff.mp found with ⟨name, _, same⟩
      exact ⟨name, same⟩
  | subscription =>
      rcases Option.bind_eq_some_iff.mp found with ⟨name, _, same⟩
      exact ⟨name, same⟩

end Schema

end GraphQuery
