import GraphQuery.Schema

namespace GraphQuery

/-! How a value that is offered takes the form that a type asks for. Literals and
values that come with a request go the same way: each is described by what it can
give to a scalar, to an enum, to a list and to an input object. -/

abbrev Coercer := TypeRef → Coerced

structure Offer where
  isNull : Bool
  /-- What a scalar gets to see. -/
  plain : Json
  symbol : EnumDefinition → Coerced
  items : Option (List Coercer)
  fields : Option (List (String × Coercer))
  refusal : (type : String) → CoercionFault

namespace Offer

def field? (name : String) (provided : List (String × Coercer)) : Option Coercer :=
  (provided.find? fun field => field.1 == name).map Prod.snd

/-- The value of a declared field: what is provided, else the default, else
nothing, unless the field refuses null. -/
def coerceField (owner : String) (declared : InputDefinition)
    (provided : List (String × Coercer)) : Except CoercionFault (Option Json) :=
  match field? declared.name provided with
  | some coercer => (coercer declared.type).map some
  | none =>
      match declared.default with
      | some default => .ok (some default)
      | none =>
          if declared.type.isNonNull then
            .error (.missingField owner declared.name declared.type)
          else .ok none

def coerceFields (owner : String) (provided : List (String × Coercer)) :
    List InputDefinition → Except CoercionFault (List (String × Json))
  | [] => .ok []
  | declared :: rest => do
      let value ← coerceField owner declared provided
      let others ← coerceFields owner provided rest
      match value with
      | some value => return (declared.name, value) :: others
      | none => return others

def coerceObject (input : InputObjectDefinition) (provided : List (String × Coercer)) :
    Coerced :=
  match provided.find? fun field => !Entries.contains field.1 input.fields with
  | some unknown => .error (.unknownField input.name unknown.1)
  | none => (coerceFields input.name provided input.fields.values).map .object

variable {ρ : Type}

def coerceNamed (schema : Schema ρ) (offer : Offer) (name : String) : Coerced :=
  match schema.type? name with
  | some (.scalar scalar) => scalar.coerceInput offer.plain
  | some (.enum enum) => offer.symbol enum
  | some (.inputObject input) =>
      match offer.fields with
      | some provided => coerceObject input provided
      | none => .error (offer.refusal name)
  | some other => .error (.notInputType name other.kind)
  | none => .error (.unknownType name)

/-- Null passes wherever it is not refused, and what is no list becomes the only
item of one. -/
def coerce (schema : Schema ρ) (offer : Offer) : Coercer
  | .nonNull inner =>
      if offer.isNull then .error (.nullRefused (.nonNull inner))
      else coerce schema offer inner
  | .list item =>
      if offer.isNull then .ok .null
      else match offer.items with
        | some coercers => (coercers.mapM fun coercer : Coercer => coercer item).map .array
        | none => (coerce schema offer item).map fun value => .array [value]
  | .named name => if offer.isNull then .ok .null else coerceNamed schema offer name

end Offer

end GraphQuery
