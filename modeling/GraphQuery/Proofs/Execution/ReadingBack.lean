import Mathlib
import GraphQuery.Proofs.Execution.Plan
import GraphQuery.Schema.Builder

/-! Responses that are read back from what was written of them. Nothing is lost but the
difference between data that are null and no data at all. -/

namespace GraphQuery

/-! ## Parts -/

namespace Json

theorem asCount?_integer {number : Nat} (fits : Word.uint64.Fits number) :
    (Json.integer number).asCount? = some number := by
  simp [asCount?, fits]

theorem listOf?_map {α : Type} {read : Json → Option α} {write : α → Json} {items : List α}
    (back : ∀ item ∈ items, read (write item) = some item) :
    listOf? read (.array (items.map write)) = some items := by
  change (items.map write).mapM read = some items
  induction items with
  | nil => rfl
  | cons item rest induction =>
      rw [List.forall_mem_cons] at back
      rw [List.map_cons, List.mapM_cons, back.1, induction back.2]
      rfl

theorem withDefault?_listEntry {α : Type} {read : Json → Option α} {write : α → Json}
    {items : List α} (back : ∀ item ∈ items, read (write item) = some item) (name : String) :
    withDefault? [] (listOf? read) (Entries.get? name (listEntry name (items.map write))) =
      some items := by
  cases items with
  | nil => rfl
  | cons item rest =>
      have written : listEntry name ((item :: rest).map write) =
          [(name, .array ((item :: rest).map write))] := rfl
      rw [written, Entries.get?, if_pos rfl]
      exact listOf?_map back

end Json

theorem Entries.get?_append {α : Type} (name : String) (first second : Entries α) :
    get? name (first ++ second) = (get? name first).or (get? name second) := by
  induction first with
  | nil => rfl
  | cons entry rest induction =>
      obtain ⟨key, value⟩ := entry
      rw [List.cons_append, get?, get?]
      split
      · rfl
      · exact induction

theorem Entries.get?_listEntry_of_ne {name other : String} (different : other ≠ name)
    (items : List Json) : Entries.get? name (listEntry other items) = none := by
  unfold listEntry
  split
  · rfl
  · rw [Entries.get?, if_neg different]
    rfl

/-! ## Errors -/

def Location.Fits (location : Location) : Prop :=
  Word.uint64.Fits location.line ∧ Word.uint64.Fits location.column

def PathSegment.Fits : PathSegment → Prop
  | .key _ => True
  | .index position => Word.uint64.Fits position

structure ResponseError.Fits (error : ResponseError) : Prop where
  locations : ∀ location ∈ error.locations, location.Fits
  path : ∀ segment ∈ error.path, segment.Fits

/-- All numbers outside the data are words, as lines, columns and positions in memory are. -/
def Response.Fits (response : Response) : Prop :=
  ∀ errors, response.errors = some errors → ∀ error ∈ errors, error.Fits

theorem Location.ofJson?_toJson {location : Location} (fits : location.Fits) :
    ofJson? location.toJson = some location := by
  have line := Json.asCount?_integer fits.1
  have column := Json.asCount?_integer fits.2
  simp [toJson, ofJson?, Entries.get?, line, column]

theorem PathSegment.ofJson?_toJson {segment : PathSegment} (fits : segment.Fits) :
    ofJson? segment.toJson = some segment := by
  cases segment with
  | key name => rfl
  | index position =>
      have position := Json.asCount?_integer fits
      simp [toJson, ofJson?, position]

theorem ResponseError.ofJson?_toJson {error : ResponseError} (fits : error.Fits) :
    ofJson? error.toJson = some error := by
  have locations := Json.withDefault?_listEntry
    (fun location member => Location.ofJson?_toJson (fits.locations location member)) "locations"
  have path := Json.withDefault?_listEntry
    (fun segment member => PathSegment.ofJson?_toJson (fits.path segment member)) "path"
  have noPath := Entries.get?_listEntry_of_ne (show "path" ≠ "locations" by decide)
    (error.path.map PathSegment.toJson)
  have noLocations := Entries.get?_listEntry_of_ne (show "locations" ≠ "path" by decide)
    (error.locations.map Location.toJson)
  simp [toJson, ofJson?, ofParts?, Entries.get?, Entries.get?_append, noPath, noLocations,
    locations, path, Json.asString?]

/-! ## Responses -/

namespace Response

/-- A response without the data that are null. -/
def withoutNull (response : Response) : Response :=
  { response with data := response.data.filter fun data => !data.isNull }

theorem withoutNull_eq_iff {response : Response} :
    response.withoutNull = response ↔ response.data ≠ some .null := by
  obtain ⟨data, errors⟩ := response
  cases data with
  | none => simp [withoutNull]
  | some data => cases data <;> simp [withoutNull, Json.isNull]

theorem optional?_data (data : Option Json) :
    Json.optional? some data = some (data.filter fun data => !data.isNull) := by
  cases data with
  | none => rfl
  | some data => cases data <;> rfl

theorem get?_toJson (response : Response) :
    ofJson? response.toJson = ofParts? response.data
      (response.errors.map fun errors => .array (errors.map ResponseError.toJson)) := by
  obtain ⟨data, errors⟩ := response
  cases data <;> cases errors <;> simp [toJson, ofJson?, Entries.get?]

theorem ofJson?_toJson {response : Response} (fits : response.Fits) :
    ofJson? response.toJson = some response.withoutNull := by
  have errors : Json.optional? (Json.listOf? ResponseError.ofJson?)
      (response.errors.map fun errors => .array (errors.map ResponseError.toJson)) =
        some response.errors := by
    cases given : response.errors with
    | none => rfl
    | some errors =>
        have back := Json.listOf?_map fun error member =>
          ResponseError.ofJson?_toJson (fits errors given error member)
        simp only [Option.map_some, Json.optional?, back]
  rw [get?_toJson, ofParts?, optional?_data, errors]
  rfl

/-- A response is read back as it was written, unless its data are null. Null data are
missing from what is read back, and all else is the same. -/
theorem read_back_but_for_null_data {response : Response} (fits : response.Fits) :
    ofJson? response.toJson = some response.withoutNull ∧
      (ofJson? response.toJson = some response ↔ response.data ≠ some .null) := by
  have back := ofJson?_toJson fits
  refine ⟨back, ?_⟩
  rw [back, Option.some.injEq]
  exact withoutNull_eq_iff

end Response

/-! ## A root that bubbles -/

namespace Churn

def query (resolver : Resolver Unit) : ObjectDefinition (Resolver Unit) where
  name := "Query"
  description := none
  fields := [("milk", ⟨"milk", none, .nonNull (.named "Int"), [], some resolver⟩)]
  implements := []

def builder (resolver : Resolver Unit) : SchemaBuilder (Resolver Unit) :=
  (SchemaBuilder.initial.add (.object (query resolver))).withRoot .query "Query"

def schema (resolver : Resolver Unit) : Schema (Resolver Unit) where
  types := (builder resolver).types
  query := "Query"
  mutation := none
  subscription := none

def empty : Resolver Unit := .pure fun _ => .ok .null

def operation : OperationDefinition where
  kind := .query
  name := none
  variableDefinitions := []
  directives := []
  selectionSet :=
    ⟨[.leaf ⟨none, ⟨"milk", ⟨1, 5⟩, ⟨1, 2⟩⟩, [], [], ⟨1, 6⟩, ⟨1, 2⟩⟩], ⟨0, 6⟩⟩
  span := ⟨0, 6⟩
  location := ⟨1, 1⟩

def document : Document := ⟨[.operation operation], ⟨0, 6⟩⟩

def request : Request := .ofQuery "{milk}"

theorem parse_request : Document.parse request.query = .ok document := by
  cbv

def preparation : Preparation Unit where
  execution := ⟨schema empty, [], [], [], none⟩
  operation := operation
  root := query empty
  fields := [⟨"milk", ⟨⟨none, ⟨"milk", ⟨1, 5⟩, ⟨1, 2⟩⟩, [], [], ⟨1, 6⟩, ⟨1, 2⟩⟩, none⟩, []⟩]

def missing : FieldFault where
  cause := .nullRefused "Query.milk"
  field := ⟨1, 2⟩
  path := [.key "milk"]

def session : Session Unit where
  shared := ⟨(), false⟩
  journal := [.failed missing, .answered [.key "milk"], .called [.key "milk"]]

def response : Response where
  data := some .null
  errors := some [⟨"Cannot return null for non-nullable field Query.milk", [⟨1, 2⟩],
    [.key "milk"]⟩]

theorem execute_request :
    (schema empty).execute .standard request [] () = ⟨response, session⟩ := by
  have prepared : (schema empty).prepare .standard document request [] = .ok preparation := rfl
  have ran : (preparation.work Configuration.standard.sequentialMutations request.rootValue).run
      ⟨⟨(), request.cancelled⟩, []⟩ = (.bubble, session) := by
    cbv
  rw [Schema.execute, parse_request]
  refine (Schema.executeDocument_of_prepare prepared).trans ?_
  rw [ran]
  rfl

theorem response_fits : response.Fits := by
  rintro _ ⟨⟩ error member
  rw [List.mem_singleton.mp member]
  constructor
  · intro location inside
    rw [List.mem_singleton.mp inside]
    exact ⟨by decide, by decide⟩
  · intro segment inside
    rw [List.mem_singleton.mp inside]
    trivial

/-- The request has been carried out, but what is read back looks like one that could not
begin. -/
theorem bubbled_root_is_not_read_back :
    (builder empty).build = .ok (schema empty) ∧
    ((schema empty).execute .standard request [] ()).response = response ∧
    ∃ other, Response.ofJson? response.toJson = some other ∧ other ≠ response ∧
      other.data = none := by
  refine ⟨rfl, congrArg Report.response execute_request, _, rfl, ?_, rfl⟩
  intro same
  cases congrArg Response.data same

/-- The errors alone are what is read back, then and from then on. -/
theorem only_errors_are_read_back :
    let errors : Response := ⟨none, response.errors⟩
    response.Fits ∧ Response.ofJson? response.toJson = some errors ∧ errors.Fits ∧
      Response.ofJson? errors.toJson = some errors := by
  have errorsFit : Response.Fits ⟨none, response.errors⟩ := response_fits
  refine ⟨response_fits, ?_, errorsFit, ?_⟩
  · exact (Response.read_back_but_for_null_data response_fits).1
  · exact (Response.read_back_but_for_null_data errorsFit).2.mpr nofun

end Churn

end GraphQuery
