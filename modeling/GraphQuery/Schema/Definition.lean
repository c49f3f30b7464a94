import GraphQuery.Coercion.Fault
import GraphQuery.Document

namespace GraphQuery

/-! Definitions of types. What resolves a field is left open here: it is a value
of some type `ρ` that a field may carry. -/

abbrev Context := Entries Json

structure InputDefinition where
  name : String
  description : Option String
  type : TypeRef
  /-- The value that is used as it stands when none is given. -/
  default : Option Json

structure FieldDefinition (ρ : Type) where
  name : String
  description : Option String
  type : TypeRef
  arguments : Entries InputDefinition
  resolver : Option ρ

structure ScalarDefinition where
  name : String
  description : Option String
  coerceInput : Json → Coerced
  coerceResult : Json → Coerced

/-- A symbol of an enum together with the value it stands for inside. -/
structure EnumValue where
  name : String
  value : Json
  description : Option String

structure EnumDefinition where
  name : String
  description : Option String
  values : Entries EnumValue

structure ObjectDefinition (ρ : Type) where
  name : String
  description : Option String
  fields : Entries (FieldDefinition ρ)
  implements : List String

abbrev TypeResolver := Json → Context → Option String

structure InterfaceDefinition (ρ : Type) where
  name : String
  description : Option String
  fields : Entries (FieldDefinition ρ)
  resolveType : Option TypeResolver

structure UnionDefinition where
  name : String
  description : Option String
  members : List String
  resolveType : Option TypeResolver

structure InputObjectDefinition where
  name : String
  description : Option String
  fields : Entries InputDefinition

inductive TypeDefinition (ρ : Type) where
  | scalar (definition : ScalarDefinition)
  | enum (definition : EnumDefinition)
  | object (definition : ObjectDefinition ρ)
  | interface (definition : InterfaceDefinition ρ)
  | union (definition : UnionDefinition)
  | inputObject (definition : InputObjectDefinition)

/-! ## Enums -/

def EnumValue.ofName (name : String) : EnumValue := ⟨name, .string name, none⟩

namespace EnumDefinition

/-- Declare a symbol. One that is declared again keeps its place. -/
def declare (enum : EnumDefinition) (value : EnumValue) : EnumDefinition :=
  { enum with values := Entries.insert value.name value enum.values }

def ofDeclarations (name : String) (description : Option String) (declared : List EnumValue) :
    EnumDefinition :=
  declared.foldl declare ⟨name, description, []⟩

def coerceInput (enum : EnumDefinition) (value : Json) : Coerced :=
  match value with
  | .string symbol =>
      match Entries.get? symbol enum.values with
      | some found => .ok found.value
      | none => .error (.notRepresentable ("Enum " ++ enum.name) value)
  | _ => .error (.notRepresentable ("Enum " ++ enum.name) value)

/-- The first symbol that stands for an inner value. -/
def coerceResult (enum : EnumDefinition) (value : Json) : Coerced :=
  match enum.values.values.find? fun candidate => candidate.value.sameValue value with
  | some found => .ok (.string found.name)
  | none => .error (.notRepresentable ("Enum " ++ enum.name) value)

end EnumDefinition

/-! ## Properties of types -/

namespace TypeDefinition

variable {ρ : Type}

def name : TypeDefinition ρ → String
  | .scalar definition => definition.name
  | .enum definition => definition.name
  | .object definition => definition.name
  | .interface definition => definition.name
  | .union definition => definition.name
  | .inputObject definition => definition.name

def description : TypeDefinition ρ → Option String
  | .scalar definition => definition.description
  | .enum definition => definition.description
  | .object definition => definition.description
  | .interface definition => definition.description
  | .union definition => definition.description
  | .inputObject definition => definition.description

def kind : TypeDefinition ρ → TypeKind
  | .scalar _ => .scalar
  | .enum _ => .enum
  | .object _ => .object
  | .interface _ => .interface
  | .union _ => .union
  | .inputObject _ => .inputObject

def isLeaf : TypeDefinition ρ → Bool
  | .scalar _ | .enum _ => true
  | _ => false

def isAbstract : TypeDefinition ρ → Bool
  | .interface _ | .union _ => true
  | _ => false

def isInput : TypeDefinition ρ → Bool
  | .scalar _ | .enum _ | .inputObject _ => true
  | _ => false

def isOutput : TypeDefinition ρ → Bool
  | .inputObject _ => false
  | _ => true

def fields? : TypeDefinition ρ → Option (Entries (FieldDefinition ρ))
  | .object definition => some definition.fields
  | .interface definition => some definition.fields
  | _ => none

end TypeDefinition

/-! ## Interfaces -/

namespace FieldDefinition

variable {ρ : Type}

/-- Whether a field can be called with everything that `declared` accepts: it has
the same arguments, and no others that must be given. -/
def acceptsArgumentsOf (field declared : FieldDefinition ρ) : Bool :=
  (declared.arguments.all fun (name, argument) =>
    match Entries.get? name field.arguments with
    | some own => decide (own.type = argument.type)
    | none => false) &&
  field.arguments.all fun (_, argument) =>
    Entries.contains argument.name declared.arguments ||
      !argument.type.isNonNull || argument.default.isSome

end FieldDefinition

end GraphQuery
