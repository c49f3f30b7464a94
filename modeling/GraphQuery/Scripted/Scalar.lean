import GraphQuery.Schema.Definition

namespace GraphQuery.Scripted

/-! Scalars whose behaviour is picked from a list, for schemas that are given as
data. -/

inductive ScalarBehavior where
  /-- Values pass unchanged. -/
  | unchanged
  /-- Strings, in upper case inside and in lower case outside. -/
  | upperCase
  /-- Even whole numbers. -/
  | even
  | absent
  | refused
deriving DecidableEq, Repr

namespace ScalarBehavior

def ofName : String → ScalarBehavior
  | "upper" => .upperCase
  | "even" => .even
  | "null" => .absent
  | "reject" => .refused
  | _ => .unchanged

def coerceString (name : String) (change : String → String) (value : Json) : Coerced :=
  match value with
  | .string text => .ok (.string (change text))
  | _ => .error (.notRepresentable name value)

def coerceEven (name : String) (value : Json) : Coerced :=
  match value.asInt64? with
  | some number =>
      if number % 2 = 0 then .ok value else .error (.notRepresentable name value)
  | none => .error (.notRepresentable name value)

def coerceInput (behavior : ScalarBehavior) (name : String) (value : Json) : Coerced :=
  match behavior with
  | .unchanged => .ok value
  | .upperCase => coerceString name String.toUpper value
  | .even => coerceEven name value
  | .absent => .ok .null
  | .refused => .error (.notRepresentable name value)

def coerceResult (behavior : ScalarBehavior) (name : String) (value : Json) : Coerced :=
  match behavior with
  | .upperCase => coerceString name String.toLower value
  | other => other.coerceInput name value

def definition (behavior : ScalarBehavior) (name : String) (description : Option String) :
    ScalarDefinition where
  name := name
  description := description
  coerceInput := behavior.coerceInput name
  coerceResult := behavior.coerceResult name

end ScalarBehavior

end GraphQuery.Scripted
