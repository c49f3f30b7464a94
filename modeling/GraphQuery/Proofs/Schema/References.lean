import GraphQuery.Proofs.Schema.Built

/-! A schema that has been built refers to types that it has, and to each of them only where
it can play its role. -/

namespace GraphQuery

variable {ρ : Type}

/-! ## What is checked -/

def Schema.Plays (schema : Schema ρ) (role : TypeDefinition ρ → Bool) (type : TypeRef) : Prop :=
  ∃ target, schema.type? type.base = some target ∧ role target = true

/-- What every reference of a type leads to. -/
structure Schema.RefersWell (schema : Schema ρ) : Prop where
  outputs : ∀ {name type fields}, schema.type? name = some type → type.fields? = some fields →
    ∀ field ∈ fields.values, schema.Plays TypeDefinition.isOutput field.type
  arguments : ∀ {name type fields}, schema.type? name = some type → type.fields? = some fields →
    ∀ field ∈ fields.values, ∀ argument ∈ field.arguments.values,
      schema.Plays TypeDefinition.isInput argument.type
  inputFields : ∀ {name input}, schema.type? name = some (.inputObject input) →
    ∀ field ∈ input.fields.values, schema.Plays TypeDefinition.isInput field.type
  members : ∀ {name union}, schema.type? name = some (.union union) →
    ∀ member ∈ union.members, ∃ object, schema.object? member = some object

namespace SchemaBuilder

variable {builder : SchemaBuilder ρ}

theorem Assembled.nodup (assembled : builder.Assembled) : builder.types.names.Nodup := by
  induction assembled with
  | initial =>
      simp [SchemaBuilder.initial, Entries.names, BuiltIn.scalars]
  | add type _ induction =>
      unfold SchemaBuilder.add
      split
      · exact Entries.nodup_insert induction _ _
      · split
        · exact induction
        · exact Entries.nodup_insert induction _ _
  | withRoot operation name _ induction =>
      cases operation <;> exact induction

def rootName? (builder : SchemaBuilder ρ) : OperationKind → Option String
  | .query => builder.query
  | .mutation => builder.mutation
  | .subscription => builder.subscription

/-- What a schema is made of, and what has been checked. -/
structure Passes (builder : SchemaBuilder ρ) (schema : Schema ρ) : Prop where
  types : schema.types = builder.types
  query : builder.query = some schema.query
  mutation : schema.mutation = builder.mutation
  subscription : schema.subscription = builder.subscription
  roots : ∀ {kind name}, builder.rootName? kind = some name →
    checkRoot builder.types kind name = .ok ()
  checked : ∀ type ∈ builder.types.values, checkType builder.types type = .ok ()

theorem passes_of_build {schema : Schema ρ} (built : builder.build = .ok schema) :
    builder.Passes schema := by
  simp only [build] at built
  split at built
  · cases built
  · split at built
    · cases built
    · rename_i query given
      obtain ⟨⟨⟩, first, built⟩ := Except.exists_of_bind built
      obtain ⟨⟨⟩, second, built⟩ := Except.exists_of_bind built
      obtain ⟨⟨⟩, third, built⟩ := Except.exists_of_bind built
      obtain ⟨⟨⟩, checked, same⟩ := Except.exists_of_bind built
      cases same
      refine ⟨rfl, given, rfl, rfl, ?_, fun type => Except.eq_ok_of_forM checked⟩
      intro kind name named
      cases kind with
      | query =>
          cases given.symm.trans named
          exact first
      | mutation =>
          rw [rootName?] at named
          rwa [named] at second
      | subscription =>
          rw [rootName?] at named
          rwa [named] at third

theorem plays_of_checkRole {types : Entries (TypeDefinition ρ)} {type : TypeRef}
    {referencedBy : String} {role : Role} {plays : TypeDefinition ρ → Bool}
    (checked : checkRole types type referencedBy role plays = .ok ()) :
    ∃ target, Entries.get? type.base types = some target ∧ plays target = true := by
  obtain ⟨target, found, checked⟩ := Except.exists_of_bind checked
  unfold lookup at found
  split at found
  · rename_i other known
    cases found
    split at checked
    · rename_i fits
      exact ⟨target, known, fits⟩
    · cases checked
  · cases found

theorem checkType_eq_ok {types : Entries (TypeDefinition ρ)} {type : TypeDefinition ρ}
    (checked : checkType types type = .ok ()) :
    (∀ fields, type.fields? = some fields →
      ∀ field ∈ fields.values, checkField types type.name field = .ok ()) ∧
    (∀ union, type = .union union →
      ∀ member ∈ union.members, checkMember types union member = .ok ()) ∧
    ∀ input, type = .inputObject input → ∀ field ∈ input.fields.values,
      checkRole types field.type (input.name ++ "." ++ field.name) .input
        TypeDefinition.isInput = .ok () := by
  obtain ⟨⟨⟩, fields, checked⟩ := Except.exists_of_bind checked
  refine ⟨?_, ?_, ?_⟩
  · intro known same field member
    rw [same] at fields
    exact Except.eq_ok_of_forM fields member
  · rintro union rfl member inside
    exact Except.eq_ok_of_forM checked inside
  · rintro input rfl field inside
    exact Except.eq_ok_of_forM checked inside

theorem object_of_checkMember {types : Entries (TypeDefinition ρ)} {union : UnionDefinition}
    {member : String} (checked : checkMember types union member = .ok ()) :
    ∃ object, Entries.get? member types = some (.object object) := by
  obtain ⟨target, found, checked⟩ := Except.exists_of_bind checked
  unfold lookup at found
  split at found
  · rename_i other known
    cases found
    cases target with
    | object object => exact ⟨object, known⟩
    | _ => cases checked
  · cases found

theorem interface_of_checkConformance {types : Entries (TypeDefinition ρ)}
    {object : ObjectDefinition ρ} {interfaceName : String}
    (checked : checkConformance types object interfaceName = .ok ()) :
    ∃ interface, Entries.get? interfaceName types = some (.interface interface) := by
  obtain ⟨target, found, checked⟩ := Except.exists_of_bind checked
  unfold lookup at found
  split at found
  · rename_i other known
    cases found
    cases target with
    | interface interface => exact ⟨interface, known⟩
    | _ => cases checked
  · cases found

end SchemaBuilder

namespace Schema

variable {schema : Schema ρ}

theorem IsBuilt.nodup (built : schema.IsBuilt) : schema.types.names.Nodup := by
  obtain ⟨builder, assembled, built⟩ := built
  rw [SchemaBuilder.types_eq_of_build built]
  exact assembled.nodup

theorem IsBuilt.type?_name (built : schema.IsBuilt) {type : TypeDefinition ρ}
    (member : type ∈ schema.types.values) : schema.type? type.name = some type := by
  obtain ⟨⟨name, _⟩, inside, rfl⟩ := List.mem_map.mp member
  have found := Entries.get?_of_mem built.nodup inside
  have named : TypeDefinition.name _ = name := built.name_eq found
  rw [named]
  exact found

theorem IsBuilt.refersWell (built : schema.IsBuilt) : schema.RefersWell := by
  obtain ⟨builder, assembled, built⟩ := built
  have passes := SchemaBuilder.passes_of_build built
  have checked : ∀ {name type}, schema.type? name = some type →
      SchemaBuilder.checkType schema.types type = .ok () := by
    intro name type found
    rw [passes.types]
    rw [type?, passes.types] at found
    exact passes.checked type (List.mem_map.mpr ⟨_, Entries.mem_of_get? found, rfl⟩)
  constructor
  case outputs =>
    intro name type fields found same field member
    have checkedField := (SchemaBuilder.checkType_eq_ok (checked found)).1 fields same field member
    obtain ⟨⟨⟩, output, _⟩ := Except.exists_of_bind checkedField
    exact SchemaBuilder.plays_of_checkRole output
  case arguments =>
    intro name type fields found same field member argument given
    have checkedField := (SchemaBuilder.checkType_eq_ok (checked found)).1 fields same field member
    obtain ⟨⟨⟩, _, arguments⟩ := Except.exists_of_bind checkedField
    exact SchemaBuilder.plays_of_checkRole (Except.eq_ok_of_forM arguments given)
  case inputFields =>
    intro name input found field member
    exact SchemaBuilder.plays_of_checkRole
      ((SchemaBuilder.checkType_eq_ok (checked found)).2.2 input rfl field member)
  case members =>
    intro name union found member inside
    have checkedMember :=
      (SchemaBuilder.checkType_eq_ok (checked found)).2.1 union rfl member inside
    obtain ⟨object, known⟩ := SchemaBuilder.object_of_checkMember checkedMember
    exact ⟨object, object?_eq_some_iff.mpr known⟩

/-! ## Roots -/

theorem root?_of_build {builder : SchemaBuilder ρ} (built : builder.build = .ok schema)
    {kind : OperationKind} {name : String} (named : builder.rootName? kind = some name) :
    ∃ object, schema.type? name = some (.object object) ∧ schema.root? kind = some object := by
  have passes := SchemaBuilder.passes_of_build built
  have same : schema.root? kind = schema.object? name := by
    cases kind with
    | query =>
        cases passes.query.symm.trans named
        rfl
    | mutation =>
        have mutation : schema.mutation = some name := passes.mutation.trans named
        simp [root?, mutation]
    | subscription =>
        have subscription : schema.subscription = some name := passes.subscription.trans named
        simp [root?, subscription]
  have checked := passes.roots named
  rw [← passes.types] at checked
  simp only [SchemaBuilder.checkRoot] at checked
  split at checked
  · rename_i object found
    exact ⟨object, found, same.trans (object?_eq_some_iff.mpr found)⟩
  · cases checked
  · cases checked

/-! ## Possible types -/

theorem IsBuilt.object?_of_possible (built : schema.IsBuilt) {abstractName name : String}
    (possible : name ∈ schema.possibleTypes abstractName) :
    ∃ object, schema.object? name = some object := by
  obtain ⟨type, member, contributes⟩ := List.mem_flatMap.mp possible
  have found := built.type?_name member
  cases type with
  | object object =>
      obtain ⟨interface, _, rfl⟩ := List.mem_map.mp contributes
      exact ⟨object, object?_eq_some_iff.mpr found⟩
  | union union =>
      simp only [contribution] at contributes
      split at contributes
      · exact built.refersWell.members found name contributes
      · cases contributes
  | _ => cases contributes

theorem IsBuilt.interface_of_implements (built : schema.IsBuilt) {object : ObjectDefinition ρ}
    {interfaceName : String} (member : .object object ∈ schema.types.values)
    (implements : interfaceName ∈ object.implements) :
    ∃ interface, schema.type? interfaceName = some (.interface interface) := by
  obtain ⟨builder, _, built⟩ := built
  have passes := SchemaBuilder.passes_of_build built
  rw [passes.types] at member
  obtain ⟨⟨⟩, _, conforms⟩ := Except.exists_of_bind (passes.checked _ member)
  rw [type?, passes.types]
  exact SchemaBuilder.interface_of_checkConformance (Except.eq_ok_of_forM conforms implements)

theorem IsBuilt.isAbstract_of_possible (built : schema.IsBuilt) {abstractName name : String}
    (possible : name ∈ schema.possibleTypes abstractName) :
    ∃ type, schema.type? abstractName = some type ∧ type.isAbstract = true := by
  obtain ⟨type, member, contributes⟩ := List.mem_flatMap.mp possible
  cases type with
  | object object =>
      obtain ⟨interfaceName, implemented, _⟩ := List.mem_map.mp contributes
      obtain ⟨listed, same⟩ := List.mem_filter.mp implemented
      rw [beq_iff_eq.mp same] at listed
      obtain ⟨interface, known⟩ := built.interface_of_implements member listed
      exact ⟨_, known, rfl⟩
  | union union =>
      simp only [contribution] at contributes
      split at contributes
      · rename_i same
        subst same
        exact ⟨_, built.type?_name member, rfl⟩
      · cases contributes
  | _ => cases contributes

end Schema

end GraphQuery
