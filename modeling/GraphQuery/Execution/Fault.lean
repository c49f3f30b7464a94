import GraphQuery.Coercion.Arguments
import GraphQuery.Document.Parser
import GraphQuery.Resolver
import GraphQuery.Selection.Fault

namespace GraphQuery

/-! What goes wrong when a request is executed. Some faults keep a request from
beginning; the others concern a single place of its response. -/

/-! ## Places -/

/-- Why a place of a response has no value. Where `field` stands for the name of a
field, the name of its object type goes before it. -/
inductive FieldCause where
  | undefined (name : String) (object : String)
  | arguments (fault : ArgumentFault)
  | resolver (fault : ResolverFault)
  | nullRefused (field : String)
  | notList (field : String) (found : Json)
  | unresolvedType (type : String) (field : String)
  | notOutputType (type : String) (field : String)
  | notCoercible (fault : CoercionFault)
  | selections (fault : SelectionFault)

namespace FieldCause

def message : FieldCause → String
  | .undefined name object =>
      "Field '" ++ name ++ "' doesn't exist on type '" ++ object ++ "'"
  | .arguments fault => fault.message
  | .resolver fault => fault.message
  | .nullRefused field => "Cannot return null for non-nullable field " ++ field
  | .notList field found =>
      "Expected a list for field " ++ field ++ ", found " ++ found.render
  | .unresolvedType type field =>
      "Could not resolve the runtime type of " ++ type ++ " for field " ++ field
  | .notOutputType type field => "Field " ++ field ++ " has non-output type " ++ type
  | .notCoercible fault => fault.message
  | .selections fault => fault.message

def location? : FieldCause → Option Location
  | .arguments fault => some fault.location
  | .selections fault => some fault.location
  | _ => none

end FieldCause

structure FieldFault where
  cause : FieldCause
  field : Location
  path : Path

def FieldFault.toError (fault : FieldFault) : ResponseError :=
  ⟨fault.cause.message, [fault.cause.location?.getD fault.field], fault.path⟩

/-! ## Requests -/

inductive OperationFault where
  | malformed (error : SyntaxError)
  | selections (fault : SelectionFault)
  | unknownOperation (name : String)
  | ambiguousOperation
  | unsupported (kind : OperationKind)
  | binding (fault : VariableFault)
  | tooDeep (depth : Nat) (limit : Nat)
  | cancelled

namespace OperationFault

def message : OperationFault → String
  | .malformed error => error.message
  | .selections fault => fault.message
  | .unknownOperation name => "Unknown operation named \"" ++ name ++ "\""
  | .ambiguousOperation =>
      "Must provide operation name if query contains multiple operations"
  | .unsupported kind => "Schema is not configured for " ++ kind.keyword ++ "s"
  | .binding fault => fault.message
  | .tooDeep depth limit =>
      s!"Query has depth of {depth}, which exceeds max depth of {limit}"
  | .cancelled => "Request was cancelled"

def location? : OperationFault → Option Location
  | .malformed error => some error.definition
  | .selections fault => some fault.location
  | .binding fault => some fault.location
  | _ => none

def toError (fault : OperationFault) : ResponseError :=
  ⟨fault.message, fault.location?.toList, []⟩

end OperationFault

end GraphQuery
