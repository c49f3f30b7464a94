import GraphQuery.Proofs.Execution.NullPropagation
import GraphQuery.Proofs.Execution.Reports

/-! The data of a response have the shape that the schema and the query ask for. -/

namespace GraphQuery

variable {ρ : Type}

namespace Schema

mutual

/-- A value conforms to a type and to the selections below it. -/
inductive Conforms (schema : Schema ρ) (fragments : FragmentTable) (bindings : Variables) :
    List SelectionSet → TypeRef → Json → Prop where
  | null {sets : List SelectionSet} {type : TypeRef} (nullable : type.isNonNull = false) :
      Conforms schema fragments bindings sets type .null
  | nonNull {sets : List SelectionSet} {inner : TypeRef} {json : Json} (present : json ≠ .null)
      (conforms : Conforms schema fragments bindings sets inner json) :
      Conforms schema fragments bindings sets (.nonNull inner) json
  | list {sets : List SelectionSet} {item : TypeRef} {items : List Json}
      (all : ∀ json ∈ items, Conforms schema fragments bindings sets item json) :
      Conforms schema fragments bindings sets (.list item) (.array items)
  | scalar {sets : List SelectionSet} {name : String} {scalar : ScalarDefinition}
      {value json : Json} (isScalar : schema.type? name = some (.scalar scalar))
      (coerced : scalar.coerceResult value = .ok json) :
      Conforms schema fragments bindings sets (.named name) json
  | enum {sets : List SelectionSet} {name : String} {enum : EnumDefinition} {symbol : EnumValue}
      (isEnum : schema.type? name = some (.enum enum)) (declared : symbol ∈ enum.values.values) :
      Conforms schema fragments bindings sets (.named name) (.string symbol.name)
  | object {sets : List SelectionSet} {name : String} {object : ObjectDefinition ρ} {json : Json}
      (isObject : schema.type? name = some (.object object))
      (conforms : ConformsObject schema fragments bindings sets object json) :
      Conforms schema fragments bindings sets (.named name) json
  | abstract {sets : List SelectionSet} {name : String} {type : TypeDefinition ρ}
      {object : ObjectDefinition ρ} {json : Json} (isType : schema.type? name = some type)
      (isAbstract : type.isAbstract = true) (possible : object.name ∈ schema.possibleTypes name)
      (isObject : schema.object? object.name = some object)
      (conforms : ConformsObject schema fragments bindings sets object json) :
      Conforms schema fragments bindings sets (.named name) json

/-- An object has an entry for each merged field, in their order, and no others. -/
inductive ConformsObject (schema : Schema ρ) (fragments : FragmentTable) (bindings : Variables) :
    List SelectionSet → ObjectDefinition ρ → Json → Prop where
  | fields {sets : List SelectionSet} {object : ObjectDefinition ρ} {fields : FieldMap}
      {entries : Entries Json}
      (merged : (⟨schema, object, fragments, bindings⟩ : Expansion ρ).merge sets = .ok fields)
      (all : ConformsFields schema fragments bindings object fields entries) :
      ConformsObject schema fragments bindings sets object (.object entries)

inductive ConformsFields (schema : Schema ρ) (fragments : FragmentTable) (bindings : Variables) :
    ObjectDefinition ρ → FieldMap → Entries Json → Prop where
  | nil {object : ObjectDefinition ρ} : ConformsFields schema fragments bindings object [] []
  | cons {object : ObjectDefinition ρ} {merged : MergedField} {fields : FieldMap} {json : Json}
      {entries : Entries Json} (first : ConformsField schema fragments bindings object merged json)
      (others : ConformsFields schema fragments bindings object fields entries) :
      ConformsFields schema fragments bindings object (merged :: fields)
        ((merged.key, json) :: entries)

inductive ConformsField (schema : Schema ρ) (fragments : FragmentTable) (bindings : Variables) :
    ObjectDefinition ρ → MergedField → Json → Prop where
  | typeName {object : ObjectDefinition ρ} {merged : MergedField}
      (isTypeName : merged.name = typeNameEntry) :
      ConformsField schema fragments bindings object merged (.string object.name)
  | undefined {object : ObjectDefinition ρ} {merged : MergedField}
      (other : merged.name ≠ typeNameEntry)
      (missing : Entries.get? merged.name object.fields = none) :
      ConformsField schema fragments bindings object merged .null
  | defined {object : ObjectDefinition ρ} {merged : MergedField} {field : FieldDefinition ρ}
      {json : Json} (other : merged.name ≠ typeNameEntry)
      (defined : Entries.get? merged.name object.fields = some field)
      (conforms : Conforms schema fragments bindings merged.selectionSets field.type json) :
      ConformsField schema fragments bindings object merged json

end

variable {schema : Schema ρ}

theorem declared_of_coerceResult {enum : EnumDefinition} {value json : Json}
    (coerced : enum.coerceResult value = .ok json) :
    ∃ symbol ∈ enum.values.values, json = .string symbol.name := by
  unfold EnumDefinition.coerceResult at coerced
  split at coerced
  · rename_i symbol chosen
    cases coerced
    exact ⟨symbol, List.mem_of_find?_eq_some chosen, rfl⟩
  · cases coerced

theorem IsBuilt.possible_of_resolved (built : schema.IsBuilt) {name : String}
    {resolver : Option TypeResolver} {value : Json} {context : Context}
    {object : ObjectDefinition ρ}
    (resolved : (match resolveTypeName resolver value context with
      | some found => if schema.isPossibleType name found then schema.object? found else none
      | none => none) = some object) :
    object.name ∈ schema.possibleTypes name ∧ schema.object? object.name = some object := by
  split at resolved
  · rename_i found _
    split at resolved
    · rename_i possible
      rw [built.object_name_eq resolved]
      exact ⟨by simpa [isPossibleType] using possible, resolved⟩
    · cases resolved
  · cases resolved

theorem IsBuilt.possible_of_runtimeType? (built : schema.IsBuilt) {name : String}
    {type : TypeDefinition ρ} {value : Json} {context : Context} {object : ObjectDefinition ρ}
    (isType : schema.type? name = some type) (isAbstract : type.isAbstract = true)
    (resolved : schema.runtimeType? type value context = some object) :
    object.name ∈ schema.possibleTypes name ∧ schema.object? object.name = some object := by
  rw [← built.name_eq isType]
  cases type with
  | interface definition => exact built.possible_of_resolved resolved
  | union definition => exact built.possible_of_resolved resolved
  | _ => cases isAbstract

end Schema

namespace Setting

variable {setting : Setting ρ}

theorem Completes.nullable {merged : MergedField} {site : FieldSite} {type : TypeRef}
    {value : Json} {path : Path} (completes : setting.Completes merged site type value path .null) :
    type.isNonNull = false := by
  cases completes with
  | null nullable => exact nullable
  | accept found => exact absurd rfl found
  | named => rfl

theorem of_outcome_ofCoerced {site : FieldSite} {path : Path} {coerced : Coerced} {json : Json}
    (outcome : (Trace.ofCoerced site path coerced).outcome = .value json) :
    json ≠ .null ∧ coerced = .ok json := by
  cases coerced with
  | error fault => cases outcome
  | ok value =>
      cases value with
      | null => cases outcome
      | _ =>
          cases outcome
          exact ⟨by simp, rfl⟩

theorem conforms_bubble {sets : List SelectionSet} {type : TypeRef} {json : Json}
    (settled : (Outcome.bubble.settleAt (some type)).json? = some json) :
    setting.schema.Conforms setting.fragments setting.bindings sets type json := by
  rw [Outcome.settleAt_some, Outcome.settle] at settled
  cases nonNull : type.isNonNull with
  | true =>
      rw [nonNull] at settled
      cases settled
  | false =>
      rw [nonNull] at settled
      cases settled
      exact .null nonNull

/-- What stands at a place of a type conforms to it if the outcome there does. -/
theorem Completes.conforms_settled {sets : List SelectionSet} {merged : MergedField}
    {site : FieldSite} {type : TypeRef} {value json : Json} {path : Path} {trace : Trace}
    (completes : setting.Completes merged site type value path trace)
    (conforms : ∀ found, trace.outcome = .value found →
      setting.schema.Conforms setting.fragments setting.bindings sets type found)
    (settled : (trace.outcome.settleAt (some type)).json? = some json) :
    setting.schema.Conforms setting.fragments setting.bindings sets type json := by
  cases outcome : trace.outcome with
  | value found =>
      rw [outcome] at settled
      cases settled
      exact conforms json outcome
  | null =>
      rw [outcome] at settled
      cases settled
      rw [Trace.eq_null_of_outcome outcome] at completes
      exact .null completes.nullable
  | bubble =>
      rw [outcome] at settled
      exact conforms_bubble settled

mutual

theorem Completes.conforms (built : setting.schema.IsBuilt) {merged : MergedField}
    {site : FieldSite} : {type : TypeRef} → {value : Json} → {path : Path} → {trace : Trace} →
    setting.Completes merged site type value path trace → {json : Json} →
    trace.outcome = .value json → json ≠ .null ∧
      setting.schema.Conforms setting.fragments setting.bindings merged.selectionSets type json
  | _, _, _, _, .null _, _, outcome => nomatch outcome
  | _, _, _, _, .accept _ completes, _, outcome =>
      have inner := completes.conforms built outcome
      ⟨inner.1, .nonNull inner.1 inner.2⟩
  | _, _, _, _, .refuse _, _, outcome => nomatch outcome
  | _, _, _, _, .list items, _, outcome => by
      rcases Trace.items_of_outcome outcome with ⟨values, collected, rfl⟩
      exact ⟨by simp, .list (items.conforms built collected)⟩
  | _, _, _, _, .notList _ _, _, outcome => nomatch outcome
  | _, _, _, _, .named _ isType completes, _, outcome => completes.conforms built isType outcome

theorem CompletesNamed.conforms (built : setting.schema.IsBuilt) {merged : MergedField}
    {site : FieldSite} {name : String} : {type : Option (TypeDefinition ρ)} → {value : Json} →
    {path : Path} → {trace : Trace} →
    setting.CompletesNamed merged site name type value path trace →
    setting.schema.type? name = type → {json : Json} → trace.outcome = .value json →
    json ≠ .null ∧
      setting.schema.Conforms setting.fragments setting.bindings merged.selectionSets
        (.named name) json
  | _, _, _, _, .scalar, isScalar, _, outcome =>
      have coerced := of_outcome_ofCoerced outcome
      ⟨coerced.1, .scalar isScalar coerced.2⟩
  | _, _, _, _, .enum, isEnum, _, outcome => by
      rcases of_outcome_ofCoerced outcome with ⟨present, coerced⟩
      rcases Schema.declared_of_coerceResult coerced with ⟨symbol, declared, rfl⟩
      exact ⟨present, .enum isEnum declared⟩
  | _, _, _, _, .object completes, isObject, _, outcome =>
      have inner := completes.conforms built outcome
      ⟨inner.1, .object isObject inner.2⟩
  | _, _, _, _, .interface completes, isInterface, _, outcome =>
      completes.conforms built isInterface rfl outcome
  | _, _, _, _, .union completes, isUnion, _, outcome =>
      completes.conforms built isUnion rfl outcome
  | _, _, _, _, .input, _, _, outcome => nomatch outcome
  | _, _, _, _, .unknown, _, _, outcome => nomatch outcome

theorem CompletesAbstract.conforms (built : setting.schema.IsBuilt) {merged : MergedField}
    {site : FieldSite} {name : String} : {type : TypeDefinition ρ} → {value : Json} →
    {path : Path} → {trace : Trace} →
    setting.CompletesAbstract merged site name type value path trace →
    setting.schema.type? name = some type → type.isAbstract = true → {json : Json} →
    trace.outcome = .value json → json ≠ .null ∧
      setting.schema.Conforms setting.fragments setting.bindings merged.selectionSets
        (.named name) json
  | _, _, _, _, .resolved resolved completes, isType, isAbstract, _, outcome =>
      have inner := completes.conforms built outcome
      have possible := built.possible_of_runtimeType? isType isAbstract resolved
      ⟨inner.1, .abstract isType isAbstract possible.1 possible.2 inner.2⟩
  | _, _, _, _, .unresolved _, _, _, _, outcome => nomatch outcome

theorem CompletesItems.conforms (built : setting.schema.IsBuilt) {merged : MergedField}
    {site : FieldSite} {item : TypeRef} {path : Path} : {position : Nat} → {values : List Json} →
    {traces : List Trace} →
    setting.CompletesItems merged site item path position values traces → {items : List Json} →
    (Trace.itemOutcomes item traces).mapM Outcome.json? = some items → ∀ json ∈ items,
      setting.schema.Conforms setting.fragments setting.bindings merged.selectionSets item json
  | _, _, _, .nil, items, collected => by
      cases collected
      simp
  | _, _, _, .cons first others, items, collected => by
      rw [Trace.itemOutcomes] at collected
      rcases Outcome.exists_of_mapM_json?_cons collected with
        ⟨value, values, settled, remaining, rfl⟩
      have head := first.conforms_settled (fun _ found => (first.conforms built found).2) settled
      have tail := others.conforms built remaining
      intro json member
      rcases List.mem_cons.mp member with rfl | member
      · exact head
      · exact tail json member

theorem CompletesObject.conforms (built : setting.schema.IsBuilt) {merged : MergedField} :
    {object : ObjectDefinition ρ} → {value : Json} → {path : Path} → {trace : Trace} →
    setting.CompletesObject merged object value path trace → {json : Json} →
    trace.outcome = .value json → json ≠ .null ∧
      setting.schema.ConformsObject setting.fragments setting.bindings merged.selectionSets object
        json
  | _, _, _, _, .fields merged all, _, outcome => by
      rcases Trace.entries_of_outcome outcome with ⟨values, collected, rfl⟩
      exact ⟨by simp, .fields merged (all.conforms built collected)⟩
  | _, _, _, _, .invalidSelections _, _, outcome => nomatch outcome

theorem CompletesFields.conforms (built : setting.schema.IsBuilt) : {object : ObjectDefinition ρ} →
    {parent : Json} → {path : Path} → {fields : FieldMap} → {traces : List (FieldPlace × Trace)} →
    setting.CompletesFields object parent path fields traces → {values : List Json} →
    (Trace.fieldOutcomes traces).mapM Outcome.json? = some values →
    setting.schema.ConformsFields setting.fragments setting.bindings object fields
      ((traces.map fun field => field.1.key).zip values)
  | _, _, _, _, _, .nil, values, collected => .nil
  | _, _, _, _, _, .cons first others, values, collected => by
      rw [Trace.fieldOutcomes] at collected
      rcases Outcome.exists_of_mapM_json?_cons collected with
        ⟨value, values, settled, remaining, rfl⟩
      exact .cons (first.conforms built settled) (others.conforms built remaining)

theorem CompletesField.conforms (built : setting.schema.IsBuilt) : {object : ObjectDefinition ρ} →
    {parent : Json} → {path : Path} → {merged : MergedField} → {type : Option TypeRef} →
    {trace : Trace} → setting.CompletesField object parent path merged type trace →
    {json : Json} → (trace.outcome.settleAt type).json? = some json →
    setting.schema.ConformsField setting.fragments setting.bindings object merged json
  | _, _, _, _, _, _, .typeName isTypeName, json, settled => by
      cases settled
      exact .typeName isTypeName
  | _, _, _, _, _, _, .undefined other missing, json, settled => by
      cases settled
      exact .undefined other missing
  | _, _, _, _, _, _, .defined other defined completes, json, settled =>
      .defined other defined (completes.conforms built settled)

theorem CompletesDefined.conforms (built : setting.schema.IsBuilt) :
    {object : ObjectDefinition ρ} → {parent : Json} → {path : Path} → {merged : MergedField} →
    {field : FieldDefinition ρ} → {trace : Trace} →
    setting.CompletesDefined object parent path merged field trace →
    {json : Json} → (trace.outcome.settleAt (some field.type)).json? = some json →
    setting.schema.Conforms setting.fragments setting.bindings merged.selectionSets field.type json
  | _, _, _, _, _, _, .refused _, _, settled => conforms_bubble settled
  | _, _, _, _, _, _, .failed _ _, _, settled => conforms_bubble settled
  | _, _, _, _, _, _, .resolved _ _ completes, _, settled =>
      completes.conforms_settled (fun _ found => (completes.conforms built found).2) settled

end

end Setting

/-- Whatever the order in which things happen, the data of a report are null or an
object that conforms to the root type and to the selections of the operation. -/
theorem Schema.MayReport.data_conforms {σ : Type} {schema : Schema (Resolver σ)}
    {configuration : Configuration} {document : Document} {request : Request} {context : Context}
    {state : σ} {report : Report σ} (built : schema.IsBuilt)
    (reports : schema.MayReport configuration document request context state report) {data : Json}
    (present : report.response.data = some data) :
    ∃ operation root bindings,
      document.selectOperation request.operationName = .ok operation ∧
      schema.root? operation.kind = some root ∧
      schema.coerceVariables operation.variableDefinitions request.variableValues =
        .ok bindings ∧
      (data = .null ∨
        schema.ConformsObject document.fragments bindings [operation.selectionSet] root data) := by
  rcases reports.exists_trace present with ⟨preparation, traces, prepared, completes, rfl, _⟩
  rcases exists_plan_of_prepare prepared with ⟨plan, planned, rfl⟩
  have answers := answers_of_plan planned
  refine ⟨plan.operation, plan.root, plan.bindings, answers.operation, answers.root,
    answers.bindings, ?_⟩
  cases outcome : (Trace.object traces).outcome with
  | value json =>
      rcases Trace.entries_of_outcome outcome with ⟨values, collected, rfl⟩
      exact .inr (.fields answers.fields (completes.conforms built collected))
  | null => exact .inl rfl
  | bubble => exact .inl rfl

theorem Visit.conforms_to_query :
    (schema (.pure answer : Resolver Unit)).IsBuilt ∧
      (schema (.pure answer)).MayReport .standard document request [] () report ∧
      report.response.data = some data ∧
      ∃ operation root bindings, document.selectOperation none = .ok operation ∧
        (schema (.pure answer : Resolver Unit)).root? operation.kind = some root ∧
        (schema (.pure answer : Resolver Unit)).coerceVariables operation.variableDefinitions [] =
          .ok bindings ∧
        (data = .null ∨ (schema (.pure answer)).ConformsObject document.fragments bindings
          [operation.selectionSet] root data) :=
  ⟨schema_isBuilt _, mayReport, rfl, mayReport.data_conforms (schema_isBuilt _) rfl⟩

end GraphQuery
