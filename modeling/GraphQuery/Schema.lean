import GraphQuery.Schema.Definition

namespace GraphQuery

/-! Schemas: named types, of which some object types are the roots of operations. -/

structure Schema (ρ : Type) where
  types : Entries (TypeDefinition ρ)
  query : String
  mutation : Option String
  subscription : Option String

namespace Schema

variable {ρ : Type}

def type? (schema : Schema ρ) (name : String) : Option (TypeDefinition ρ) :=
  Entries.get? name schema.types

def object? (schema : Schema ρ) (name : String) : Option (ObjectDefinition ρ) :=
  match schema.type? name with
  | some (.object definition) => some definition
  | _ => none

def root? (schema : Schema ρ) : OperationKind → Option (ObjectDefinition ρ)
  | .query => schema.object? schema.query
  | .mutation => schema.mutation.bind schema.object?
  | .subscription => schema.subscription.bind schema.object?

def contribution (abstractName : String) : TypeDefinition ρ → List String
  | .object definition =>
      (definition.implements.filter (· == abstractName)).map fun _ => definition.name
  | .union definition => if definition.name = abstractName then definition.members else []
  | _ => []

def possibleTypes (schema : Schema ρ) (abstractName : String) : List String :=
  schema.types.values.flatMap (contribution abstractName)

def listed (table : Entries (List String)) (name : String) : List String :=
  (Entries.get? name table).getD []

def enlist (name : String) (more : List String) (table : Entries (List String)) :
    Entries (List String) :=
  Entries.insert name (listed table name ++ more) table

def record (table : Entries (List String)) : TypeDefinition ρ → Entries (List String)
  | .object definition =>
      definition.implements.foldl
        (fun table interface => enlist interface [definition.name] table) table
  | .interface definition => enlist definition.name [] table
  | .union definition => enlist definition.name definition.members table
  | _ => table

def possibleTypesTable (schema : Schema ρ) : Entries (List String) :=
  schema.types.values.foldl record []

def isPossibleType (schema : Schema ρ) (abstractName objectName : String) : Bool :=
  (schema.possibleTypes abstractName).contains objectName

def implements (schema : Schema ρ) (objectName interfaceName : String) : Bool :=
  match schema.object? objectName with
  | some definition => definition.implements.contains interfaceName
  | none => false

def typeNameEntry : String := "__typename"

def resolveTypeName (resolver : Option TypeResolver) (value : Json) (context : Context) :
    Option String :=
  match resolver with
  | some resolve => resolve value context
  | none => (value.entry? typeNameEntry).bind Json.asString?

/-- The object type of a value. The name that is found must be one of the
possible types. -/
def runtimeType? (schema : Schema ρ) (type : TypeDefinition ρ) (value : Json)
    (context : Context) : Option (ObjectDefinition ρ) :=
  let named (resolver : Option TypeResolver) : Option (ObjectDefinition ρ) :=
    match resolveTypeName resolver value context with
    | some name => if schema.isPossibleType type.name name then schema.object? name else none
    | none => none
  match type with
  | .interface definition => named definition.resolveType
  | .union definition => named definition.resolveType
  | .object definition => schema.object? definition.name
  | _ => none

end Schema

end GraphQuery
