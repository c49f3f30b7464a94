import GraphQuery.Coercion.Variables

namespace GraphQuery

/-! The arguments of a field. -/

inductive ArgumentCause where
  | unknown (argument : String)
  | invalid (argument : String) (literal : Literal) (expected : TypeRef)
      (reason : CoercionFault)

structure ArgumentFault where
  field : String
  cause : ArgumentCause
  location : Location

def ArgumentFault.message (fault : ArgumentFault) : String :=
  match fault.cause with
  | .unknown argument =>
      "Field '" ++ fault.field ++ "' doesn't accept argument '" ++ argument ++ "'"
  | .invalid argument literal expected _ =>
      "Argument '" ++ argument ++ "' on Field '" ++ fault.field ++
        "' has an invalid value (" ++ literal.render ++ "). Expected type '" ++
        expected.render ++ "'."

namespace Schema

variable {ρ : Type}

def isOmitted (bindings : Variables) (argument : Argument) : Bool :=
  match argument.value with
  | .reference name => bindings.isUnbound name.text
  | _ => false

/-- The value of a declared argument. One that is not given, or given as an
unbound variable, has its default or else is null. -/
def coerceArgument (schema : Schema ρ) (field : String) (bindings : Variables)
    (declared : InputDefinition) (given : Option Argument) : Except ArgumentFault Json :=
  match given.filter fun argument => !isOmitted bindings argument with
  | none => .ok (declared.default.getD .null)
  | some argument =>
      match schema.coerceLiteral bindings argument.value declared.type with
      | .ok value => .ok value
      | .error reason =>
          .error ⟨field, .invalid declared.name argument.value declared.type reason,
            argument.location⟩

def coerceDeclared (schema : Schema ρ) (field : String) (bindings : Variables)
    (given : List Argument) : List InputDefinition → Except ArgumentFault (Entries Json)
  | [] => .ok []
  | declared :: rest => do
      let value ← schema.coerceArgument field bindings declared
        (Argument.find? declared.name given)
      let others ← schema.coerceDeclared field bindings given rest
      return (declared.name, value) :: others

/-- All declared arguments of a field in declared order; no others may be given. -/
def coerceArguments (schema : Schema ρ) (field : FieldDefinition ρ) (given : List Argument)
    (bindings : Variables) : Except ArgumentFault (Entries Json) :=
  match given.find? fun argument => !Entries.contains argument.name.text field.arguments with
  | some unknown => .error ⟨field.name, .unknown unknown.name.text, unknown.location⟩
  | none => schema.coerceDeclared field.name bindings given field.arguments.values

end Schema

end GraphQuery
