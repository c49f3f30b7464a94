import GraphQuery.Document.Literal
import GraphQuery.Json.Printer
import GraphQuery.TypeRef

namespace GraphQuery

/-! Why a value does not fit a type. -/

inductive TypeKind where
  | scalar
  | enum
  | object
  | interface
  | union
  | inputObject
deriving DecidableEq, Repr

def TypeKind.render : TypeKind → String
  | .scalar => "scalar"
  | .enum => "enum"
  | .object => "object"
  | .interface => "interface"
  | .union => "union"
  | .inputObject => "input object"

inductive CoercionFault where
  | notRepresentable (type : String) (value : Json)
  | notString (value : Json)
  | notBoolean (value : Json)
  | notSymbol (enum : String) (literal : Literal)
  | nullRefused (type : TypeRef)
  | notObject (type : String) (found : String)
  | unknownType (name : String)
  | notInputType (name : String) (kind : TypeKind)
  | unknownField (type : String) (field : String)
  | missingField (type : String) (field : String) (expected : TypeRef)
  | undefinedVariable (name : String)
  | misplacedVariable (name : String) (declared : TypeRef) (position : TypeRef)
  | missingVariable (name : String) (position : TypeRef)
  | nullVariable (name : String) (position : TypeRef)
  | other (message : String)

namespace CoercionFault

def message : CoercionFault → String
  | .notRepresentable type value => type ++ " cannot represent value: " ++ value.render
  | .notString value => "String cannot represent a non string value: " ++ value.render
  | .notBoolean value => "Boolean cannot represent a non boolean value: " ++ value.render
  | .notSymbol enum literal =>
      "Enum " ++ enum ++ " cannot represent non-enum value: " ++ literal.render
  | .nullRefused type => "Expected non-null value of type " ++ type.render
  | .notObject type found => "Expected an object of type " ++ type ++ ", found " ++ found
  | .unknownType name => "Unknown type " ++ name
  | .notInputType name kind =>
      name ++ " is an " ++ kind.render ++ " type and cannot be used as input"
  | .unknownField type field => "Field '" ++ field ++ "' is not defined by type " ++ type
  | .missingField type field expected =>
      "Field " ++ type ++ "." ++ field ++ " of required type " ++ expected.render ++
        " was not provided"
  | .undefinedVariable name => "Variable $" ++ name ++ " is not defined"
  | .misplacedVariable name declared position =>
      "Variable $" ++ name ++ " of type " ++ declared.render ++
        " used in position expecting type " ++ position.render
  | .missingVariable name position =>
      "Variable $" ++ name ++ " of required type " ++ position.render ++ " was not provided"
  | .nullVariable name position =>
      "Expected non-null value of type " ++ position.render ++ ", variable $" ++ name ++
        " is null"
  | .other message => message

end CoercionFault

abbrev Coerced := Except CoercionFault Json

end GraphQuery
