import GraphQuery.Json
import GraphQuery.Source.Location

namespace GraphQuery

/-! What a client gets back, and its JSON form. Read back from JSON, a record may
also be a list of its fields in order; entries of other names are passed over. -/

inductive PathSegment where
  | key (name : String)
  | index (position : Nat)
deriving DecidableEq, Repr

abbrev Path := List PathSegment

def PathSegment.render : PathSegment → String
  | .key name => name
  | .index position => toString position

structure ResponseError where
  message : String
  locations : List Location
  path : Path
deriving DecidableEq

namespace ResponseError

def ofMessage (message : String) : ResponseError := ⟨message, [], []⟩

def render (error : ResponseError) : String :=
  match error.locations with
  | location :: _ => error.message ++ " (" ++ location.render ++ ")"
  | [] => error.message

end ResponseError

/-- Data are missing when a request could not begin; once it has begun, they are
there and may be null. -/
structure Response where
  data : Option Json
  errors : Option (List ResponseError)

namespace Response

def empty : Response := ⟨none, none⟩

def ofData (data : Json) : Response := ⟨some data, none⟩

def ofErrors (errors : List ResponseError) : Response := ⟨none, some errors⟩

/-- Exchange the errors; an empty list counts as none. -/
def withErrors (response : Response) (errors : List ResponseError) : Response :=
  { response with errors := if errors.isEmpty then none else some errors }

def hasErrors (response : Response) : Bool :=
  match response.errors with
  | some (_ :: _) => true
  | _ => false

def hasData (response : Response) : Bool := response.data.isSome

end Response

/-- Collects the errors of a request in the order in which they are reported. -/
structure ErrorReporter where
  errors : List ResponseError

namespace ErrorReporter

def empty : ErrorReporter := ⟨[]⟩

def report (reporter : ErrorReporter) (error : ResponseError) : ErrorReporter :=
  ⟨reporter.errors ++ [error]⟩

def length (reporter : ErrorReporter) : Nat := reporter.errors.length

def isEmpty (reporter : ErrorReporter) : Bool := reporter.errors.isEmpty

theorem errors_foldl_report {α : Type} (toError : α → ResponseError) (sources : List α)
    (reporter : ErrorReporter) :
    (sources.foldl (fun reporter source => reporter.report (toError source)) reporter).errors =
      reporter.errors ++ sources.map toError := by
  induction sources generalizing reporter with
  | nil => simp
  | cons source rest induction => rw [List.foldl_cons, induction, report]; simp

end ErrorReporter

/-! ## Writing -/

def Location.toJson (location : Location) : Json :=
  .object [("line", .integer location.line), ("col", .integer location.column)]

def PathSegment.toJson : PathSegment → Json
  | .key name => .string name
  | .index position => .integer position

def listEntry (name : String) (items : List Json) : List (String × Json) :=
  if items.isEmpty then [] else [(name, .array items)]

def ResponseError.toJson (error : ResponseError) : Json :=
  .object (("message", .string error.message) ::
    (listEntry "locations" (error.locations.map Location.toJson) ++
      listEntry "path" (error.path.map PathSegment.toJson)))

def Response.toJson (response : Response) : Json :=
  .object
    ((match response.data with
      | some data => [("data", data)]
      | none => []) ++
    (match response.errors with
      | some errors => [("errors", .array (errors.map ResponseError.toJson))]
      | none => []))

/-! ## Reading -/

namespace Json

def asCount? : Json → Option Nat
  | .integer value => if Word.uint64.Fits value then some value.toNat else none
  | _ => none

def listOf? {α : Type} (read : Json → Option α) : Json → Option (List α)
  | .array items => items.mapM read
  | _ => none

def optional? {α : Type} (read : Json → Option α) : Option Json → Option (Option α)
  | none => some none
  | some .null => some none
  | some value => (read value).map some

def withDefault? {α : Type} (default : α) (read : Json → Option α) : Option Json → Option α
  | none => some default
  | some value => read value

end Json

def Location.ofJson? : Json → Option Location
  | .object entries => do
      let line ← (Entries.get? "line" entries).bind Json.asCount?
      let column ← (Entries.get? "col" entries).bind Json.asCount?
      return ⟨line, column⟩
  | .array [line, column] => do return ⟨← line.asCount?, ← column.asCount?⟩
  | _ => none

def PathSegment.ofJson? : Json → Option PathSegment
  | .string name => some (.key name)
  | value => value.asCount?.map .index

namespace ResponseError

def ofParts? (message : Option Json) (locations path : Option Json) : Option ResponseError := do
  let message ← message.bind Json.asString?
  let locations ← Json.withDefault? [] (Json.listOf? Location.ofJson?) locations
  let path ← Json.withDefault? [] (Json.listOf? PathSegment.ofJson?) path
  return ⟨message, locations, path⟩

def ofJson? : Json → Option ResponseError
  | .object entries =>
      ofParts? (Entries.get? "message" entries) (Entries.get? "locations" entries)
        (Entries.get? "path" entries)
  | .array [message] => ofParts? (some message) none none
  | .array [message, locations] => ofParts? (some message) (some locations) none
  | .array [message, locations, path] => ofParts? (some message) (some locations) (some path)
  | _ => none

end ResponseError

namespace Response

def ofParts? (data errors : Option Json) : Option Response := do
  let data ← Json.optional? some data
  let errors ← Json.optional? (Json.listOf? ResponseError.ofJson?) errors
  return ⟨data, errors⟩

def ofJson? : Json → Option Response
  | .object entries => ofParts? (Entries.get? "data" entries) (Entries.get? "errors" entries)
  | .array [data, errors] => ofParts? (some data) (some errors)
  | _ => none

end Response

end GraphQuery
