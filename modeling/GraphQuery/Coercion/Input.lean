import GraphQuery.Coercion.Offer

namespace GraphQuery

/-! Coercion of values that come with a request. -/

namespace Offer

def ofJson (value : Json) (items : Option (List Coercer))
    (fields : Option (List (String × Coercer))) : Offer where
  isNull := value.isNull
  plain := value
  symbol := fun enum => enum.coerceInput value
  items := items
  fields := fields
  refusal := fun type => .notObject type value.render

end Offer

namespace Schema

variable {ρ : Type}

mutual
def coerceInput (schema : Schema ρ) : Json → Coercer
  | .array items =>
      (Offer.ofJson (.array items) (some (itemCoercers schema items)) none).coerce schema
  | .object entries =>
      (Offer.ofJson (.object entries) none (some (entryCoercers schema entries))).coerce schema
  | .null => (Offer.ofJson .null none none).coerce schema
  | .boolean value => (Offer.ofJson (.boolean value) none none).coerce schema
  | .integer value => (Offer.ofJson (.integer value) none none).coerce schema
  | .float value => (Offer.ofJson (.float value) none none).coerce schema
  | .string value => (Offer.ofJson (.string value) none none).coerce schema

def itemCoercers (schema : Schema ρ) : List Json → List Coercer
  | [] => []
  | item :: rest => coerceInput schema item :: itemCoercers schema rest

def entryCoercers (schema : Schema ρ) : List (String × Json) → List (String × Coercer)
  | [] => []
  | (name, value) :: rest => (name, coerceInput schema value) :: entryCoercers schema rest
end

end Schema

end GraphQuery
