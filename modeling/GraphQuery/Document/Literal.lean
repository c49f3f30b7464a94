import GraphQuery.Number.Decimal
import GraphQuery.Source.Location
import GraphQuery.Source.Span
import GraphQuery.Text.Quoted

namespace GraphQuery

/-! Values as they are written in a query text. -/

structure Name where
  text : String
  span : Span
  location : Location
deriving DecidableEq

inductive Literal where
  | reference (name : Name)
  | int (value : Int)
  | float (value : Binary64)
  | string (value : String)
  | boolean (value : Bool)
  | null
  | symbol (name : String)
  | list (items : List Literal)
  | object (fields : List (Name × Literal))
deriving Inhabited

namespace Literal

def isNull : Literal → Bool
  | .null => true
  | _ => false

mutual
def hasVariables : Literal → Bool
  | .reference _ => true
  | .list items => itemsHaveVariables items
  | .object fields => fieldsHaveVariables fields
  | _ => false

def itemsHaveVariables : List Literal → Bool
  | [] => false
  | item :: rest => hasVariables item || itemsHaveVariables rest

def fieldsHaveVariables : List (Name × Literal) → Bool
  | [] => false
  | (_, value) :: rest => hasVariables value || fieldsHaveVariables rest
end

/-- Doubles are written plainly from `0.0001` up to sixteen digits before the
point, and beyond that with an exponent. -/
def numberLayout : Decimal.Layout where
  tie := .up
  plainFrom := -4
  plainTo := 15
  exponentSign := ""
  infinity := "inf"

mutual
def render : Literal → String
  | .reference name => "$" ++ name.text
  | .int value => toString value
  | .float value => numberLayout.render value
  | .string value => Text.quote value
  | .boolean value => if value then "true" else "false"
  | .null => "null"
  | .symbol name => name
  | .list items => "[" ++ ", ".intercalate (renderItems items) ++ "]"
  | .object fields => "\x7b" ++ ", ".intercalate (renderFields fields) ++ "\x7d"

def renderItems : List Literal → List String
  | [] => []
  | item :: rest => render item :: renderItems rest

def renderFields : List (Name × Literal) → List String
  | [] => []
  | (name, value) :: rest => (name.text ++ ": " ++ render value) :: renderFields rest
end

end Literal

end GraphQuery
