import GraphQuery.Execution.Outcome
import GraphQuery.Execution.Work

namespace GraphQuery

/-! How a resolved value becomes part of a response. Its type says which nulls it
accepts, which values it wants as lists, and how its leaves are written. -/

structure FieldSite where
  owner : String
  name : String
  location : Location

namespace FieldSite

def qualifiedName (site : FieldSite) : String := site.owner ++ "." ++ site.name

def fail {σ : Type} (site : FieldSite) (path : Path) (cause : FieldCause) (outcome : Outcome) :
    Work σ :=
  .record (.failed ⟨cause, site.location, path⟩) (.done outcome)

end FieldSite

abbrev ObjectWork (σ : Type) := ObjectDefinition (Resolver σ) → Json → Path → Work σ

/-- What the completion of a field's value depends on, apart from the value. -/
structure Completion (σ : Type) where
  schema : Schema (Resolver σ)
  context : Context
  site : FieldSite
  object : ObjectWork σ

namespace Completion

variable {σ : Type}

def leaf (completion : Completion σ) (path : Path) : Coerced → Work σ
  | .ok .null => .done .null
  | .ok value => .done (.value value)
  | .error fault => completion.site.fail path (.notCoercible fault) .bubble

def abstractly (completion : Completion σ) (type : TypeDefinition (Resolver σ)) (name : String)
    (value : Json) (path : Path) : Work σ :=
  match completion.schema.runtimeType? type value completion.context with
  | some object => completion.object object value path
  | none =>
      completion.site.fail path (.unresolvedType name completion.site.qualifiedName) .bubble

def named (completion : Completion σ) (name : String) (value : Json) (path : Path) :
    Work σ :=
  match completion.schema.type? name with
  | some (.scalar scalar) => completion.leaf path (scalar.coerceResult value)
  | some (.enum enum) => completion.leaf path (enum.coerceResult value)
  | some (.object object) => completion.object object value path
  | some (.interface interface) => completion.abstractly (.interface interface) name value path
  | some (.union union) => completion.abstractly (.union union) name value path
  | _ => completion.site.fail path (.notOutputType name completion.site.qualifiedName) .bubble

/-- A null is reported where it is refused, and nowhere above. -/
def refuseNull (completion : Completion σ) (path : Path) : Outcome → Work σ
  | .null =>
      completion.site.fail path (.nullRefused completion.site.qualifiedName) .bubble
  | outcome => .done outcome

/-- Complete a value up to what its type does with an outcome that bubbles. -/
def unsettled (completion : Completion σ) : TypeRef → Json → Path → Work σ
  | .nonNull inner, value, path =>
      (completion.unsettled inner value path).andThen (completion.refuseNull path)
  | .list item, value, path =>
      match value with
      | .null => .done .null
      | .array items =>
          .group
            (items.mapIdx fun index value =>
              (completion.unsettled item value (path ++ [.index index])).map
                (Outcome.settle item))
            (.done ∘ Outcome.ofItems)
      | found =>
          completion.site.fail path (.notList completion.site.qualifiedName found) .bubble
  | .named name, value, path =>
      if value.isNull then .done .null else completion.named name value path

def complete (completion : Completion σ) (type : TypeRef) (value : Json) (path : Path) :
    Work σ :=
  (completion.unsettled type value path).map (Outcome.settle type)

end Completion

end GraphQuery
