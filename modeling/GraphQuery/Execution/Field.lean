import GraphQuery.Execution.Completion
import GraphQuery.Selection.Merge

namespace GraphQuery

/-! The work that fields ask for: find the arguments, call the resolver, complete
what it answers, and do the same for the selections below. -/

structure Execution (σ : Type) where
  schema : Schema (Resolver σ)
  fragments : FragmentTable
  bindings : Variables
  context : Context
  /-- How many milliseconds a resolver may take. -/
  timeout : Option Nat

namespace Execution

variable {σ : Type}

def expansion (execution : Execution σ) (object : ObjectDefinition (Resolver σ)) :
    Expansion (Resolver σ) :=
  ⟨execution.schema, object, execution.fragments, execution.bindings⟩

def resolution (execution : Execution σ) (field : FieldDefinition (Resolver σ))
    (call : FieldCall) : Resolution σ :=
  let resolution := (field.resolver.getD .ofParent) call
  match execution.timeout with
  | some limit => resolution.within limit
  | none => resolution

/-- A field that the object type defines: unless its arguments are at fault, it begins
with the call of its resolver. -/
def definedField (execution : Execution σ) (below : ObjectWork σ)
    (object : ObjectDefinition (Resolver σ)) (parent : Json) (path : Path)
    (merged : MergedField) (field : FieldDefinition (Resolver σ)) : Opening σ :=
  let site : FieldSite := ⟨object.name, field.name, merged.location⟩
  let failed := Outcome.settle field.type .bubble
  match execution.schema.coerceArguments field merged.arguments execution.bindings with
  | .error fault => .quiet (site.fail path (.arguments fault) failed)
  | .ok arguments =>
      let call : FieldCall :=
        { parent := parent, arguments := arguments, context := execution.context
          field := merged.name, parentType := object.name, returnType := field.type
          path := path }
      let answered : Except ResolverFault Json → Work σ
        | .ok value =>
            Completion.complete ⟨execution.schema, execution.context, site, below⟩
              field.type value path
        | .error fault => site.fail path (.resolver fault) failed
      .calling path
        (.ofResolution (fun result => .record (.answered path) (answered result))
          (execution.resolution field call))

/-- One field of an object. Every object type has the field that gives its name. Nothing
can come between the look at the cancellation and the call of a resolver. -/
def field (execution : Execution σ) (below : MergedField → ObjectWork σ)
    (object : ObjectDefinition (Resolver σ)) (parent : Json) (path : Path)
    (merged : MergedField) : Work σ :=
  let path := path ++ [.key merged.key]
  .begin <| Opening.unlessCancelled <|
    if merged.name = Schema.typeNameEntry then .quiet (.done (.value (.string object.name)))
    else
      match Entries.get? merged.name object.fields with
      | none =>
          .quiet (FieldSite.fail ⟨object.name, merged.name, merged.location⟩ path
            (.undefined merged.name object.name) .null)
      | some field => execution.definedField (below merged) object parent path merged field

def fields (execution : Execution σ) (below : MergedField → ObjectWork σ)
    (arrange : List (Work σ) → (List Outcome → Work σ) → Work σ)
    (fields : FieldMap) : ObjectWork σ := fun object value path =>
  arrange (fields.map (execution.field below object value path))
    (.done ∘ Outcome.ofFields (fields.map MergedField.key))

/-- An object that is the value of a field. Its selections are less than `levels`
deep, so no object is left once there is no level. -/
def object (execution : Execution σ) : (levels : Nat) → MergedField → ObjectWork σ
  | 0, _, _, _, _ => .done (.value (.object []))
  | levels + 1, merged, object, value, path =>
      match (execution.expansion object).merge merged.selectionSets with
      | .error fault =>
          FieldSite.fail ⟨object.name, merged.name, merged.location⟩ path (.selections fault)
            .bubble
      | .ok fields => execution.fields (execution.object levels) .group fields object value path

end Execution

end GraphQuery
