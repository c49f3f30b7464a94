import GraphQuery.Entries
import GraphQuery.Number.Decimal
import GraphQuery.Number.Word

namespace GraphQuery

/-! Values as they travel to and from clients. Whole numbers and doubles are
kept apart, and the entries of an object stay in order. -/

inductive Json where
  | null
  | boolean (value : Bool)
  | integer (value : Int)
  | float (value : Binary64)
  | string (value : String)
  | array (items : List Json)
  | object (entries : List (String × Json))
deriving Inhabited

namespace Json

def isNull : Json → Bool
  | .null => true
  | _ => false

theorem isNull_iff {value : Json} : value.isNull = true ↔ value = .null := by
  cases value <;> simp [isNull]

/-- Keep a double if it is finite; JSON has no text for the others. -/
def ofFloat (value : Binary64) : Json :=
  if value.isFinite then .float value else .null

def asInt64? : Json → Option Int
  | .integer value => if Word.int64.Fits value then some value else none
  | _ => none

def asFloat? : Json → Option Binary64
  | .integer value => some (Binary64.ofInt value)
  | .float value => some value
  | _ => none

def asString? : Json → Option String
  | .string value => some value
  | _ => none

def asBool? : Json → Option Bool
  | .boolean value => some value
  | _ => none

def entry? (value : Json) (name : String) : Option Json :=
  match value with
  | .object entries => Entries.get? name entries
  | _ => none

/-! Equality of values: a whole number never equals a double, doubles are
compared as numbers, and the order of an object's entries does not count. -/

mutual
def sameValue : Json → Json → Bool
  | .null, .null => true
  | .boolean left, .boolean right => left == right
  | .integer left, .integer right => left == right
  | .float left, .float right => left.sameValue right
  | .string left, .string right => left == right
  | .array left, .array right => sameItems left right
  | .object left, .object right =>
      left.length == right.length && entriesWithin left right
  | _, _ => false

def sameItems : List Json → List Json → Bool
  | [], [] => true
  | left :: lefts, right :: rights => sameValue left right && sameItems lefts rights
  | _, _ => false

def entriesWithin : List (String × Json) → List (String × Json) → Bool
  | [], _ => true
  | (name, left) :: lefts, rights =>
      (match Entries.get? name rights with
        | some right => sameValue left right
        | none => false) && entriesWithin lefts rights
end

end Json

end GraphQuery
