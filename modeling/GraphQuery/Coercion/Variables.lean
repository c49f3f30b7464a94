import GraphQuery.Coercion.Input

namespace GraphQuery

/-! Variables and the literals in which they stand. -/

structure Binding where
  type : TypeRef
  hasDefault : Bool
  value : Option Json

abbrev Variables := Entries Binding

namespace Variables

def value? (bindings : Variables) (name : String) : Option Json :=
  (Entries.get? name bindings).bind Binding.value

def isUnbound (bindings : Variables) (name : String) : Bool :=
  match Entries.get? name bindings with
  | some binding => binding.value.isNone
  | none => false

end Variables

/-! ## Literals as plain values -/

namespace Literal

mutual
/-- The value of a literal without regard to any type. Symbols become strings,
and what has no value becomes null. -/
def toJson (bindings : Variables) : Literal → Json
  | .reference name => (bindings.value? name.text).getD .null
  | .int value => .integer value
  | .float value => Json.ofFloat value
  | .string value => .string value
  | .boolean value => .boolean value
  | .null => .null
  | .symbol name => .string name
  | .list items => .array (itemsToJson bindings items)
  | .object fields => .object (fieldsToJson bindings [] fields)

def itemsToJson (bindings : Variables) : List Literal → List Json
  | [] => []
  | item :: rest => toJson bindings item :: itemsToJson bindings rest

def fieldsToJson (bindings : Variables) (collected : Entries Json) :
    List (Name × Literal) → Entries Json
  | [] => collected
  | (name, value) :: rest =>
      fieldsToJson bindings
        (Entries.insert name.text (toJson bindings value) collected) rest
end

end Literal

/-! ## Variables in typed positions -/

/-- Whether a value of the declared type may be used in a position. A value may
stand for a list of it. -/
def variableFits (declared position : TypeRef) : Bool :=
  match declared, position with
  | .nonNull declared, .nonNull position => variableFits declared position
  | _, .nonNull _ => false
  | .nonNull declared, position => variableFits declared position
  | .list declared, .list position => variableFits declared position
  | .named declared, .list position => variableFits (.named declared) position
  | .list _, .named _ => false
  | .named declared, .named position => declared == position
termination_by sizeOf declared + sizeOf position

/-- Wrap a value of the declared type in the lists that a position asks for. -/
def promote (declared : TypeRef) (position : TypeRef) (value : Json) : Json :=
  match position with
  | .nonNull position => promote declared position value
  | .named _ => value
  | .list position =>
      match declared.toNullable, value with
      | _, .null => .null
      | .list declared, .array items =>
          .array (items.map fun item => promote declared position item)
      | .list _, other => other
      | declared, value => .array [promote declared position value]

/-- A variable with a default may stand where null is refused, since null then
arises only if it is given. -/
def coerceVariable (bindings : Variables) (name : String) (type : TypeRef) : Coerced :=
  match Entries.get? name bindings with
  | none => .error (.undefinedVariable name)
  | some binding =>
      let position :=
        if binding.hasDefault && !binding.type.isNonNull then type.toNullable else type
      if !variableFits binding.type position then
        .error (.misplacedVariable name binding.type type)
      else match binding.value with
        | none =>
            if type.isNonNull then .error (.missingVariable name type) else .ok .null
        | some .null =>
            if type.isNonNull then .error (.nullVariable name type) else .ok .null
        | some value => .ok (promote binding.type type value)

/-! ## Literals in typed positions -/

namespace Offer

def symbolOfLiteral (literal : Literal) (enum : EnumDefinition) : Coerced :=
  match literal with
  | .symbol name => enum.coerceInput (.string name)
  | other => .error (.notSymbol enum.name other)

def ofLiteral (bindings : Variables) (literal : Literal) (items : Option (List Coercer))
    (fields : Option (List (String × Coercer))) : Offer where
  isNull := literal.isNull
  plain := literal.toJson bindings
  symbol := symbolOfLiteral literal
  items := items
  fields := fields
  refusal := fun type => .notObject type literal.render

end Offer

namespace Schema

variable {ρ : Type}

mutual
def coerceLiteral (schema : Schema ρ) (bindings : Variables) : Literal → Coercer
  | .reference name => coerceVariable bindings name.text
  | .list items =>
      (Offer.ofLiteral bindings (.list items)
        (some (literalCoercers schema bindings items)) none).coerce schema
  | .object fields =>
      (Offer.ofLiteral bindings (.object fields) none
        (some (fieldCoercers schema bindings fields))).coerce schema
  | .int value => (Offer.ofLiteral bindings (.int value) none none).coerce schema
  | .float value => (Offer.ofLiteral bindings (.float value) none none).coerce schema
  | .string value => (Offer.ofLiteral bindings (.string value) none none).coerce schema
  | .boolean value => (Offer.ofLiteral bindings (.boolean value) none none).coerce schema
  | .null => (Offer.ofLiteral bindings .null none none).coerce schema
  | .symbol name => (Offer.ofLiteral bindings (.symbol name) none none).coerce schema

def literalCoercers (schema : Schema ρ) (bindings : Variables) :
    List Literal → List Coercer
  | [] => []
  | item :: rest => coerceLiteral schema bindings item :: literalCoercers schema bindings rest

def fieldCoercers (schema : Schema ρ) (bindings : Variables) :
    List (Name × Literal) → List (String × Coercer)
  | [] => []
  | (name, value) :: rest =>
      (name.text, coerceLiteral schema bindings value) :: fieldCoercers schema bindings rest
end

end Schema

/-! ## Binding the variables of an operation -/

inductive VariableCause where
  | unknownType
  | notInputType
  | nullRefused
  | invalidValue (value : Json)
  | invalidDefault (default : Literal) (reason : CoercionFault)

structure VariableFault where
  name : String
  type : TypeRef
  cause : VariableCause
  location : Location

def VariableFault.message (fault : VariableFault) : String :=
  "Variable " ++ fault.name ++ " of type " ++ fault.type.render ++
    (match fault.cause with
      | .unknownType => " references an unknown type"
      | .notInputType => " must be an input type"
      | .nullRefused => " can't be null"
      | .invalidValue value => " was provided invalid value " ++ value.render
      | .invalidDefault default reason =>
          " has an invalid default value " ++ default.render ++ ": " ++ reason.message)

namespace Schema

variable {ρ : Type}

/-- The value of a variable: what is given, else the default, else none, so that
arguments fall back on defaults of their own. -/
def variableValue (schema : Schema ρ) (type : TypeRef) (default : Option Literal)
    (given : Option Json) : Except VariableCause (Option Json) :=
  match given, default with
  | some value, _ =>
      if value.isNull && type.isNonNull then .error .nullRefused
      else match schema.coerceInput value type with
        | .ok value => .ok (some value)
        | .error _ => .error (.invalidValue value)
  | none, some literal =>
      match schema.coerceLiteral [] literal type with
      | .ok value => .ok (some value)
      | .error reason => .error (.invalidDefault literal reason)
  | none, none => if type.isNonNull then .error .nullRefused else .ok none

def bindVariable (schema : Schema ρ) (definition : VariableDefinition)
    (given : Entries Json) : Except VariableFault Binding :=
  let type := definition.type.toTypeRef
  let fault (cause : VariableCause) : Except VariableFault Binding :=
    .error ⟨definition.name.text, type, cause, definition.location⟩
  match schema.type? type.base with
  | none => fault .unknownType
  | some target =>
      if !target.isInput then fault .notInputType
      else
        match schema.variableValue type definition.default
            (Entries.get? definition.name.text given) with
        | .error cause => fault cause
        | .ok value =>
            .ok ⟨type, (definition.default.map fun literal => !literal.isNull).getD false, value⟩

def bindVariables (schema : Schema ρ) (given : Entries Json) :
    List VariableDefinition → Variables → Except VariableFault Variables
  | [], bindings => .ok bindings
  | definition :: rest, bindings => do
      let binding ← schema.bindVariable definition given
      schema.bindVariables given rest
        (Entries.insert definition.name.text binding bindings)

def coerceVariables (schema : Schema ρ) (definitions : List VariableDefinition)
    (given : Entries Json) : Except VariableFault Variables :=
  schema.bindVariables given definitions []

end Schema

end GraphQuery
