import GraphQuery.Schema
import GraphQuery.Schema.BuiltIn

namespace GraphQuery

/-! Building a schema from definitions, and what must hold of them. -/

/-! ## Faults -/

inductive Nonconformance where
  | missingField (name : String)
  | differentType (name : String) (actual expected : TypeRef)
  | argumentsRefused (name : String)

def Nonconformance.message : Nonconformance → String
  | .missingField name => "missing field '" ++ name ++ "'"
  | .differentType name actual expected =>
      "field '" ++ name ++ "' is declared as " ++ actual.render ++
        " but the interface expects " ++ expected.render
  | .argumentsRefused name =>
      "field '" ++ name ++ "' does not accept the interface's arguments"

inductive Role where
  | output
  | input
  | object
  | interface
deriving DecidableEq, Repr

def Role.render : Role → String
  | .output => "output"
  | .input => "input"
  | .object => "object"
  | .interface => "interface"

inductive SchemaFault where
  | unknownType (name : String) (referencedBy : String)
  | duplicateType (name : String)
  | missingQueryType
  | invalidRoot (operation : OperationKind) (name : String)
  | wrongRole (name : String) (referencedBy : String) (expected : Role)
  | nonconformance (object interface : String) (reason : Nonconformance)

namespace SchemaFault

def rootLabel : OperationKind → String
  | .query => "Query"
  | .mutation => "Mutation"
  | .subscription => "Subscription"

def message : SchemaFault → String
  | .unknownType name referencedBy =>
      "Unknown type '" ++ name ++ "' referenced by " ++ referencedBy
  | .duplicateType name => "Type '" ++ name ++ "' is defined more than once"
  | .missingQueryType => "Schema has no query type"
  | .invalidRoot operation name =>
      rootLabel operation ++ " type '" ++ name ++ "' must be an object type"
  | .wrongRole name referencedBy expected =>
      referencedBy ++ " uses '" ++ name ++ "', which is not an " ++ expected.render ++ " type"
  | .nonconformance object interface reason =>
      object ++ " does not conform to interface " ++ interface ++ ": " ++ reason.message

end SchemaFault

/-! ## Collecting definitions -/

/-- The types and roots named so far. A built-in scalar may be replaced once;
any other name that comes again is remembered as a duplicate. -/
structure SchemaBuilder (ρ : Type) where
  types : Entries (TypeDefinition ρ)
  replaced : List String
  duplicates : List String
  query : Option String
  mutation : Option String
  subscription : Option String

namespace SchemaBuilder

variable {ρ : Type}

def initial : SchemaBuilder ρ where
  types := BuiltIn.scalars.map fun scalar => (scalar.name, .scalar scalar)
  replaced := []
  duplicates := []
  query := none
  mutation := none
  subscription := none

def withRoot (operation : OperationKind) (name : String) (builder : SchemaBuilder ρ) :
    SchemaBuilder ρ :=
  match operation with
  | .query => { builder with query := some name }
  | .mutation => { builder with mutation := some name }
  | .subscription => { builder with subscription := some name }

def add (type : TypeDefinition ρ) (builder : SchemaBuilder ρ) : SchemaBuilder ρ :=
  if BuiltIn.isScalarName type.name && !builder.replaced.contains type.name then
    { builder with
      types := Entries.insert type.name type builder.types
      replaced := builder.replaced ++ [type.name] }
  else if Entries.contains type.name builder.types then
    { builder with duplicates := builder.duplicates ++ [type.name] }
  else { builder with types := Entries.insert type.name type builder.types }

/-! ## Checking -/

def lookup (types : Entries (TypeDefinition ρ)) (name referencedBy : String) :
    Except SchemaFault (TypeDefinition ρ) :=
  match Entries.get? name types with
  | some type => .ok type
  | none => .error (.unknownType name referencedBy)

def checkRoot (types : Entries (TypeDefinition ρ)) (operation : OperationKind)
    (name : String) : Except SchemaFault Unit :=
  match Entries.get? name types with
  | some (.object _) => .ok ()
  | some _ => .error (.invalidRoot operation name)
  | none => .error (.unknownType name ("the " ++ operation.keyword ++ " root"))

def checkOptionalRoot (types : Entries (TypeDefinition ρ)) (operation : OperationKind)
    (name : Option String) : Except SchemaFault Unit :=
  match name with
  | some name => checkRoot types operation name
  | none => .ok ()

def checkRole (types : Entries (TypeDefinition ρ)) (type : TypeRef) (referencedBy : String)
    (role : Role) (plays : TypeDefinition ρ → Bool) : Except SchemaFault Unit := do
  let target ← lookup types type.base referencedBy
  if plays target then return () else .error (.wrongRole target.name referencedBy role)

def checkField (types : Entries (TypeDefinition ρ)) (owner : String)
    (field : FieldDefinition ρ) : Except SchemaFault Unit := do
  let place := owner ++ "." ++ field.name
  checkRole types field.type place .output TypeDefinition.isOutput
  field.arguments.values.forM fun argument =>
    checkRole types argument.type (place ++ "(" ++ argument.name ++ ":)") .input
      TypeDefinition.isInput

def conformance (object : ObjectDefinition ρ) (name : String)
    (expected : FieldDefinition ρ) : Except Nonconformance Unit :=
  match Entries.get? name object.fields with
  | none => .error (.missingField name)
  | some actual =>
      if actual.type ≠ expected.type then
        .error (.differentType name actual.type expected.type)
      else if actual.acceptsArgumentsOf expected then .ok ()
      else .error (.argumentsRefused name)

def checkConformance (types : Entries (TypeDefinition ρ)) (object : ObjectDefinition ρ)
    (interfaceName : String) : Except SchemaFault Unit := do
  match ← lookup types interfaceName object.name with
  | .interface interface =>
      interface.fields.forM fun (name, expected) =>
        match conformance object name expected with
        | .ok () => .ok ()
        | .error reason => .error (.nonconformance object.name interfaceName reason)
  | other => .error (.wrongRole other.name object.name .interface)

def checkMember (types : Entries (TypeDefinition ρ)) (union : UnionDefinition)
    (member : String) : Except SchemaFault Unit := do
  match ← lookup types member union.name with
  | .object _ => return ()
  | other => .error (.wrongRole other.name union.name .object)

def checkType (types : Entries (TypeDefinition ρ)) (type : TypeDefinition ρ) :
    Except SchemaFault Unit := do
  (Entries.values (type.fields?.getD [])).forM (checkField types type.name)
  match type with
  | .object object => object.implements.forM (checkConformance types object)
  | .union union => union.members.forM (checkMember types union)
  | .inputObject input =>
      input.fields.values.forM fun field =>
        checkRole types field.type (input.name ++ "." ++ field.name) .input
          TypeDefinition.isInput
  | _ => return ()

/-- The schema, or the first fault: a duplicate, then the roots, then the types
in the order in which they were added. -/
def build (builder : SchemaBuilder ρ) : Except SchemaFault (Schema ρ) :=
  match builder.duplicates with
  | name :: _ => .error (.duplicateType name)
  | [] =>
      match builder.query with
      | none => .error .missingQueryType
      | some query => do
          checkRoot builder.types .query query
          checkOptionalRoot builder.types .mutation builder.mutation
          checkOptionalRoot builder.types .subscription builder.subscription
          builder.types.values.forM (checkType builder.types)
          return ⟨builder.types, query, builder.mutation, builder.subscription⟩

end SchemaBuilder

end GraphQuery
