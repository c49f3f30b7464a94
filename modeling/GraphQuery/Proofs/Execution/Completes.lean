import GraphQuery.Execution.Completion
import GraphQuery.Proofs.Execution.Trace
import GraphQuery.Selection.Merge

/-! The rules by which values become parts of a response, without regard to when
anything is done. Each rule says what is noted in the trace. -/

namespace GraphQuery

variable {ρ : Type}

/-- The trace of a leaf, from what a scalar or an enum makes of its value. -/
def Trace.ofCoerced (site : FieldSite) (path : Path) : Coerced → Trace
  | .ok .null => .null
  | .ok value => .leaf value
  | .error fault => .failed ⟨.notCoercible fault, site.location, path⟩

/-- What completion depends on. Of the resolvers no more is known than what they can
answer. -/
structure Setting (ρ : Type) where
  schema : Schema ρ
  fragments : FragmentTable
  bindings : Variables
  context : Context
  Answers : FieldDefinition ρ → FieldCall → Except ResolverFault Json → Prop

namespace Setting

def expansion (setting : Setting ρ) (object : ObjectDefinition ρ) : Expansion ρ :=
  ⟨setting.schema, object, setting.fragments, setting.bindings⟩

mutual

/-- A value of a type, which is not yet complete, is completed at a path. -/
inductive Completes (setting : Setting ρ) :
    MergedField → FieldSite → TypeRef → Json → Path → Trace → Prop where
  | null {merged : MergedField} {site : FieldSite} {type : TypeRef} {path : Path}
      (nullable : type.isNonNull = false) : Completes setting merged site type .null path .null
  | accept {merged : MergedField} {site : FieldSite} {inner : TypeRef} {value : Json}
      {path : Path} {trace : Trace} (found : trace ≠ .null)
      (completes : Completes setting merged site inner value path trace) :
      Completes setting merged site (.nonNull inner) value path trace
  | refuse {merged : MergedField} {site : FieldSite} {inner : TypeRef} {value : Json}
      {path : Path} (completes : Completes setting merged site inner value path .null) :
      Completes setting merged site (.nonNull inner) value path
        (.failed ⟨.nullRefused site.qualifiedName, site.location, path⟩)
  | list {merged : MergedField} {site : FieldSite} {item : TypeRef} {values : List Json}
      {path : Path} {traces : List Trace}
      (items : CompletesItems setting merged site item path 0 values traces) :
      Completes setting merged site (.list item) (.array values) path (.list item traces)
  | notList {merged : MergedField} {site : FieldSite} {item : TypeRef} {value : Json}
      {path : Path} (present : value.isNull = false) (other : ∀ values, value ≠ .array values) :
      Completes setting merged site (.list item) value path
        (.failed ⟨.notList site.qualifiedName value, site.location, path⟩)
  | named {merged : MergedField} {site : FieldSite} {name : String} {value : Json} {path : Path}
      {type : Option (TypeDefinition ρ)} {trace : Trace} (present : value.isNull = false)
      (isType : setting.schema.type? name = type)
      (completes : CompletesNamed setting merged site name type value path trace) :
      Completes setting merged site (.named name) value path trace

inductive CompletesNamed (setting : Setting ρ) :
    MergedField → FieldSite → String → Option (TypeDefinition ρ) → Json → Path → Trace → Prop where
  | scalar {merged : MergedField} {site : FieldSite} {name : String} {scalar : ScalarDefinition}
      {value : Json} {path : Path} :
      CompletesNamed setting merged site name (some (.scalar scalar)) value path
        (.ofCoerced site path (scalar.coerceResult value))
  | enum {merged : MergedField} {site : FieldSite} {name : String} {enum : EnumDefinition}
      {value : Json} {path : Path} :
      CompletesNamed setting merged site name (some (.enum enum)) value path
        (.ofCoerced site path (enum.coerceResult value))
  | object {merged : MergedField} {site : FieldSite} {name : String}
      {object : ObjectDefinition ρ} {value : Json} {path : Path} {trace : Trace}
      (completes : CompletesObject setting merged object value path trace) :
      CompletesNamed setting merged site name (some (.object object)) value path trace
  | interface {merged : MergedField} {site : FieldSite} {name : String}
      {interface : InterfaceDefinition ρ} {value : Json} {path : Path} {trace : Trace}
      (completes : CompletesAbstract setting merged site name (.interface interface) value path
        trace) :
      CompletesNamed setting merged site name (some (.interface interface)) value path trace
  | union {merged : MergedField} {site : FieldSite} {name : String} {union : UnionDefinition}
      {value : Json} {path : Path} {trace : Trace}
      (completes : CompletesAbstract setting merged site name (.union union) value path trace) :
      CompletesNamed setting merged site name (some (.union union)) value path trace
  | input {merged : MergedField} {site : FieldSite} {name : String}
      {input : InputObjectDefinition} {value : Json} {path : Path} :
      CompletesNamed setting merged site name (some (.inputObject input)) value path
        (.failed ⟨.notOutputType name site.qualifiedName, site.location, path⟩)
  | unknown {merged : MergedField} {site : FieldSite} {name : String} {value : Json}
      {path : Path} :
      CompletesNamed setting merged site name none value path
        (.failed ⟨.notOutputType name site.qualifiedName, site.location, path⟩)

/-- A value of an interface or a union is completed as the object that it is. -/
inductive CompletesAbstract (setting : Setting ρ) :
    MergedField → FieldSite → String → TypeDefinition ρ → Json → Path → Trace → Prop where
  | resolved {merged : MergedField} {site : FieldSite} {name : String} {type : TypeDefinition ρ}
      {value : Json} {path : Path} {object : ObjectDefinition ρ} {trace : Trace}
      (resolved : setting.schema.runtimeType? type value setting.context = some object)
      (completes : CompletesObject setting merged object value path trace) :
      CompletesAbstract setting merged site name type value path trace
  | unresolved {merged : MergedField} {site : FieldSite} {name : String} {type : TypeDefinition ρ}
      {value : Json} {path : Path}
      (unresolved : setting.schema.runtimeType? type value setting.context = none) :
      CompletesAbstract setting merged site name type value path
        (.failed ⟨.unresolvedType name site.qualifiedName, site.location, path⟩)

inductive CompletesItems (setting : Setting ρ) :
    MergedField → FieldSite → TypeRef → Path → Nat → List Json → List Trace → Prop where
  | nil {merged : MergedField} {site : FieldSite} {item : TypeRef} {path : Path}
      {position : Nat} : CompletesItems setting merged site item path position [] []
  | cons {merged : MergedField} {site : FieldSite} {item : TypeRef} {path : Path}
      {position : Nat} {value : Json} {values : List Json} {trace : Trace} {traces : List Trace}
      (first : Completes setting merged site item value (path ++ [.index position]) trace)
      (others : CompletesItems setting merged site item path (position + 1) values traces) :
      CompletesItems setting merged site item path position (value :: values)
        (trace :: traces)

inductive CompletesObject (setting : Setting ρ) :
    MergedField → ObjectDefinition ρ → Json → Path → Trace → Prop where
  | fields {merged : MergedField} {object : ObjectDefinition ρ} {value : Json}
      {path : Path} {fields : FieldMap} {traces : List (FieldPlace × Trace)}
      (collected : (setting.expansion object).merge merged.selectionSets = .ok fields)
      (all : CompletesFields setting object value path fields traces) :
      CompletesObject setting merged object value path (.object traces)
  | invalidSelections {merged : MergedField} {object : ObjectDefinition ρ}
      {value : Json} {path : Path} {fault : SelectionFault}
      (refused : (setting.expansion object).merge merged.selectionSets = .error fault) :
      CompletesObject setting merged object value path
        (.failed ⟨.selections fault, merged.location, path⟩)

inductive CompletesFields (setting : Setting ρ) :
    ObjectDefinition ρ → Json → Path → FieldMap → List (FieldPlace × Trace) → Prop where
  | nil {object : ObjectDefinition ρ} {parent : Json} {path : Path} :
      CompletesFields setting object parent path [] []
  | cons {object : ObjectDefinition ρ} {parent : Json} {path : Path}
      {merged : MergedField} {fields : FieldMap} {type : Option TypeRef} {trace : Trace}
      {traces : List (FieldPlace × Trace)}
      (first : CompletesField setting object parent (path ++ [.key merged.key]) merged type trace)
      (others : CompletesFields setting object parent path fields traces) :
      CompletesFields setting object parent path (merged :: fields)
        ((⟨merged.key, type⟩, trace) :: traces)

/-- A field of an object is completed. It has a type if the object type defines it. -/
inductive CompletesField (setting : Setting ρ) :
    ObjectDefinition ρ → Json → Path → MergedField → Option TypeRef → Trace → Prop where
  | typeName {object : ObjectDefinition ρ} {parent : Json} {path : Path}
      {merged : MergedField} (isTypeName : merged.name = Schema.typeNameEntry) :
      CompletesField setting object parent path merged (some (.nonNull (.named "String")))
        (.leaf (.string object.name))
  | undefined {object : ObjectDefinition ρ} {parent : Json} {path : Path}
      {merged : MergedField} (other : merged.name ≠ Schema.typeNameEntry)
      (missing : Entries.get? merged.name object.fields = none) :
      CompletesField setting object parent path merged none
        (.failed ⟨.undefined merged.name object.name, merged.location, path⟩)
  | defined {object : ObjectDefinition ρ} {parent : Json} {path : Path} {merged : MergedField}
      {field : FieldDefinition ρ} {trace : Trace} (other : merged.name ≠ Schema.typeNameEntry)
      (defined : Entries.get? merged.name object.fields = some field)
      (completes : CompletesDefined setting object parent path merged field trace) :
      CompletesField setting object parent path merged (some field.type) trace

/-- A field that the object type defines is completed from the answer of its resolver. -/
inductive CompletesDefined (setting : Setting ρ) :
    ObjectDefinition ρ → Json → Path → MergedField → FieldDefinition ρ → Trace → Prop where
  | refused {object : ObjectDefinition ρ} {parent : Json} {path : Path} {merged : MergedField}
      {field : FieldDefinition ρ} {fault : ArgumentFault}
      (refused : setting.schema.coerceArguments field merged.arguments setting.bindings =
        .error fault) :
      CompletesDefined setting object parent path merged field
        (.failed ⟨.arguments fault, merged.location, path⟩)
  | failed {object : ObjectDefinition ρ} {parent : Json} {path : Path} {merged : MergedField}
      {field : FieldDefinition ρ} {arguments : Arguments} {fault : ResolverFault}
      (accepted : setting.schema.coerceArguments field merged.arguments setting.bindings =
        .ok arguments)
      (answers : setting.Answers field ⟨parent, arguments, setting.context, merged.name,
        object.name, field.type, path⟩ (.error fault)) :
      CompletesDefined setting object parent path merged field
        (.failed ⟨.resolver fault, merged.location, path⟩)
  | resolved {object : ObjectDefinition ρ} {parent : Json} {path : Path} {merged : MergedField}
      {field : FieldDefinition ρ} {arguments : Arguments} {value : Json} {trace : Trace}
      (accepted : setting.schema.coerceArguments field merged.arguments setting.bindings =
        .ok arguments)
      (answers : setting.Answers field ⟨parent, arguments, setting.context, merged.name,
        object.name, field.type, path⟩ (.ok value))
      (completes : Completes setting merged ⟨object.name, field.name, merged.location⟩
        field.type value path trace) :
      CompletesDefined setting object parent path merged field trace

end

end Setting

end GraphQuery
