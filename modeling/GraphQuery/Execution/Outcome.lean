import GraphQuery.Json
import GraphQuery.TypeRef

namespace GraphQuery

/-! What became of the value of a field or of an item of a list. -/

inductive Outcome where
  | value (json : Json)
  | null
  /-- A null where null is refused. The object or list around it cannot hold it. -/
  | bubble

namespace Outcome

def json? : Outcome → Option Json
  | .value json => some json
  | .null => some .null
  | .bubble => none

/-- A type that accepts null stops what bubbles up to it. -/
def settle (type : TypeRef) : Outcome → Outcome
  | .bubble => if type.isNonNull then .bubble else .null
  | outcome => outcome

def ofItems (outcomes : List Outcome) : Outcome :=
  match outcomes.mapM json? with
  | some items => .value (.array items)
  | none => .bubble

def ofFields (keys : List String) (outcomes : List Outcome) : Outcome :=
  match outcomes.mapM json? with
  | some values => .value (.object (keys.zip values))
  | none => .bubble

end Outcome

end GraphQuery
