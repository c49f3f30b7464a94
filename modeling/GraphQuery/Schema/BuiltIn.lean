import GraphQuery.Schema.Definition

namespace GraphQuery.BuiltIn

/-! The scalars that every schema starts with. -/

/-- A whole number as a word of 64 bits. A number that comes in another form is taken
as a double, which has to be whole and is moved to the edge of the word if it lies
beyond. -/
def wholeWord? (value : Json) : Option Int :=
  match value.asInt64? with
  | some whole => some whole
  | none => (value.asFloat?.filter Binary64.isWhole).map (Binary64.toWord .int64)

def coerceInt (value : Json) : Coerced :=
  match wholeWord? value with
  | some whole =>
      if Word.int32.Fits whole then .ok (.integer whole)
      else .error (.notRepresentable "Int" value)
  | none => .error (.notRepresentable "Int" value)

def coerceFloat (value : Json) : Coerced :=
  match value.asFloat?.filter Binary64.isFinite with
  | some number => .ok (.float number)
  | none => .error (.notRepresentable "Float" value)

def coerceInputString (value : Json) : Coerced :=
  match value with
  | .string _ => .ok value
  | _ => .error (.notString value)

def coerceResultString (value : Json) : Coerced :=
  match value with
  | .string _ => .ok value
  | .integer _ | .float _ | .boolean _ => .ok (.string value.render)
  | _ => .error (.notRepresentable "String" value)

def coerceBoolean (value : Json) : Coerced :=
  match value with
  | .boolean _ => .ok value
  | _ => .error (.notBoolean value)

def coerceId (value : Json) : Coerced :=
  match value with
  | .string _ => .ok value
  | .integer _ => .ok (.string value.render)
  | _ => .error (.notRepresentable "ID" value)

def scalars : List ScalarDefinition :=
  [⟨"Int", some "Signed 32-bit integer", coerceInt, coerceInt⟩,
    ⟨"Float", some "Double-precision floating point value", coerceFloat, coerceFloat⟩,
    ⟨"String", some "UTF-8 character sequence", coerceInputString, coerceResultString⟩,
    ⟨"Boolean", some "true or false", coerceBoolean, coerceBoolean⟩,
    ⟨"ID", some "Unique identifier, serialized as a string", coerceId, coerceId⟩]

def isScalarName (name : String) : Bool :=
  scalars.any fun scalar => scalar.name == name

end GraphQuery.BuiltIn
