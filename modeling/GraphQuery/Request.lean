import GraphQuery.Response

namespace GraphQuery

/-! What a client asks for. -/

structure Request where
  query : String
  operationName : Option String
  variableValues : Entries Json
  rootValue : Json
  /-- Whether the request is withdrawn before it begins. -/
  cancelled : Bool

namespace Request

def ofQuery (query : String) : Request := ⟨query, none, [], .null, false⟩

def asEntries? : Json → Option (Entries Json)
  | .object entries => some entries
  | _ => none

def ofParts? (query operationName variableValues : Option Json) : Option Request := do
  let query ← query.bind Json.asString?
  let operationName ← Json.optional? Json.asString? operationName
  let variableValues ← Json.withDefault? [] asEntries? variableValues
  return { ofQuery query with operationName := operationName, variableValues := variableValues }

def ofJson? : Json → Option Request
  | .object entries =>
      ofParts? (Entries.get? "query" entries) (Entries.get? "operationName" entries)
        (Entries.get? "variables" entries)
  | .array [query] => ofParts? (some query) none none
  | .array [query, operationName] => ofParts? (some query) (some operationName) none
  | .array [query, operationName, variableValues] =>
      ofParts? (some query) (some operationName) (some variableValues)
  | _ => none

end Request

end GraphQuery
