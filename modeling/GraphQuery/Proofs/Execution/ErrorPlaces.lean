import GraphQuery.Proofs.Execution.NullPropagation
import GraphQuery.Proofs.Execution.Reports

/-! Errors and nulls of a response correspond. Every error tells the place where it
was found, and the nulls are where the errors put them. -/

namespace GraphQuery

namespace Trace

/-- The faults of a trace are found where they say, at and below a path. -/
structure Located (path : Path) (trace : Trace) : Prop where
  distinct : trace.Distinct
  path_eq : ∀ {below fault}, trace.FailsAt below fault → fault.path = path ++ below

theorem Located.null {path : Path} : Located path .null where
  distinct := .null
  path_eq := by
    intro below fault fails
    cases fails with
    | deeper found => simp [child?] at found

theorem Located.leaf {path : Path} {value : Json} : Located path (.leaf value) where
  distinct := .leaf
  path_eq := by
    intro below fault fails
    cases fails with
    | deeper found => simp [child?] at found

theorem Located.failed {path : Path} {fault : FieldFault} (here : fault.path = path) :
    Located path (.failed fault) where
  distinct := .failed
  path_eq := by
    intro below other fails
    cases fails with
    | here => simp [here]
    | deeper found => simp [child?] at found

theorem located_ofCoerced {site : FieldSite} {path : Path} {coerced : Coerced} :
    Located path (ofCoerced site path coerced) := by
  cases coerced with
  | error fault => exact .failed rfl
  | ok value =>
      cases value with
      | null => exact .null
      | _ => exact .leaf

theorem Located.list {path : Path} {item : TypeRef} {items : List Trace}
    (all : ∀ position trace, items[position]? = some trace →
      Located (path ++ [.index position]) trace) : Located path (.list item items) where
  distinct := by
    refine .list fun trace member => ?_
    rcases List.getElem?_of_mem member with ⟨position, found⟩
    exact (all position trace found).distinct
  path_eq := by
    intro below fault fails
    cases fails with
    | deeper found fails =>
        rcases of_child?_list found with ⟨position, rfl, _, member⟩
        rw [(all position _ member).path_eq fails]
        simp

theorem Located.object {path : Path} {fields : List (FieldPlace × Trace)}
    (nodup : (fields.map fun field => field.1.key).Nodup)
    (all : ∀ field ∈ fields, Located (path ++ [.key field.1.key]) field.2) :
    Located path (.object fields) where
  distinct := .object nodup fun field member => (all field member).distinct
  path_eq := by
    intro below fault fails
    cases fails with
    | deeper found fails =>
        rcases of_child?_object found with ⟨field, rfl, _, rfl, member⟩
        rw [(all field (List.mem_of_find?_eq_some member)).path_eq fails]
        simp

/-- The faults of a trace are those that are found at its places. -/
theorem Distinct.mem_faults_iff {trace : Trace} (distinct : trace.Distinct) {fault : FieldFault} :
    fault ∈ trace.faults ↔ ∃ path, trace.FailsAt path fault := by
  induction distinct with
  | null =>
      simp only [faults, List.not_mem_nil, false_iff, not_exists]
      intro path fails
      cases fails with
      | deeper found => simp [child?] at found
  | @failed other =>
      simp only [faults, List.mem_singleton]
      constructor
      · rintro rfl
        exact ⟨[], .here⟩
      · rintro ⟨path, fails⟩
        cases fails with
        | here => rfl
        | deeper found => simp [child?] at found
  | leaf =>
      simp only [faults, List.not_mem_nil, false_iff, not_exists]
      intro path fails
      cases fails with
      | deeper found => simp [child?] at found
  | @list item items _ induction =>
      rw [faults, itemFaults_eq_flatMap, List.mem_flatMap]
      constructor
      · rintro ⟨child, member, inside⟩
        rcases (induction child member).mp inside with ⟨path, fails⟩
        rcases List.getElem?_of_mem member with ⟨position, found⟩
        exact ⟨.index position :: path, .deeper (child?_list_of_getElem? found) fails⟩
      · rintro ⟨path, fails⟩
        cases fails with
        | deeper found fails =>
            rcases of_child?_list found with ⟨position, rfl, _, member⟩
            have member := List.mem_of_getElem? member
            exact ⟨_, member, (induction _ member).mpr ⟨_, fails⟩⟩
  | @object fields nodup _ induction =>
      rw [faults, fieldFaults_eq_flatMap, List.mem_flatMap]
      constructor
      · rintro ⟨field, member, inside⟩
        rcases (induction field member).mp inside with ⟨path, fails⟩
        exact ⟨.key field.1.key :: path, .deeper (child?_object_of_mem nodup member) fails⟩
      · rintro ⟨path, fails⟩
        cases fails with
        | deeper found fails =>
            rcases of_child?_object found with ⟨field, rfl, _, rfl, member⟩
            have member := List.mem_of_find?_eq_some member
            exact ⟨field, member, (induction field member).mpr ⟨_, fails⟩⟩

theorem Located.child {path : Path} {trace child : Trace} {segment : PathSegment}
    {type : Option TypeRef} (located : trace.Located path)
    (found : trace.child? segment = some (type, child)) :
    child.Located (path ++ [segment]) where
  distinct := located.distinct.child found
  path_eq := by
    intro below fault fails
    rw [located.path_eq (.deeper found fails), List.append_cons]

theorem Located.filter_faults {path : Path} {trace : Trace} (located : trace.Located path) :
    trace.faults.filter (fun fault => ¬ path <+: fault.path) = [] := by
  apply List.filter_eq_nil_iff.mpr
  intro fault member
  obtain ⟨below, fails⟩ := located.distinct.mem_faults_iff.mp member
  simp [located.path_eq fails]

theorem FailsAt.at? {trace : Trace} {path : Path} {fault : FieldFault}
    (fails : trace.FailsAt path fault) (type : Option TypeRef) :
    ∃ found, trace.at? type path = some (found, .failed fault) := by
  induction fails generalizing type with
  | here => exact ⟨type, rfl⟩
  | deeper found _ induction =>
      rcases induction _ with ⟨last, below⟩
      exact ⟨last, by rw [Trace.at?, found, Option.bind_some, below]⟩

theorem json?_settleAt_none (outcome : Outcome) :
    (outcome.settleAt none).json? = some outcome.toData := by
  cases outcome <;> rfl

end Trace

namespace Setting

open Trace

variable {ρ : Type} {setting : Setting ρ}

theorem CompletesFields.keys {object : ObjectDefinition ρ} {parent : Json} {path : Path}
    {fields : FieldMap} {traces : List (FieldPlace × Trace)}
    (completes : setting.CompletesFields object parent path fields traces) :
    (traces.map fun field => field.1.key) = fields.map MergedField.key := by
  induction fields generalizing traces with
  | nil =>
      cases completes
      rfl
  | cons merged rest induction =>
      cases completes with
      | cons _ others => rw [List.map_cons, List.map_cons, induction others]

theorem located_fields {object : ObjectDefinition ρ} {parent : Json} {path : Path}
    {fields : FieldMap} {traces : List (FieldPlace × Trace)} {sets : List SelectionSet}
    (collected : (setting.expansion object).merge sets = .ok fields)
    (completes : setting.CompletesFields object parent path fields traces)
    (all : ∀ field ∈ traces, Located (path ++ [.key field.1.key]) field.2) :
    Located path (.object traces) := by
  apply Located.object _ all
  rw [completes.keys]
  exact Expansion.nodup_keys_merge collected

mutual

theorem Completes.located {merged : MergedField} {site : FieldSite} : {type : TypeRef} →
    {value : Json} → {path : Path} → {trace : Trace} →
    setting.Completes merged site type value path trace → trace.Located path
  | _, _, _, _, .null _ => .null
  | _, _, _, _, .accept _ completes => completes.located
  | _, _, _, _, .refuse _ => .failed rfl
  | _, _, _, _, .list items => .list fun position trace found => by
      simpa using items.located position trace found
  | _, _, _, _, .notList _ _ => .failed rfl
  | _, _, _, _, .named _ _ completes => completes.located

theorem CompletesNamed.located {merged : MergedField} {site : FieldSite} {name : String} :
    {type : Option (TypeDefinition ρ)} → {value : Json} → {path : Path} → {trace : Trace} →
    setting.CompletesNamed merged site name type value path trace → trace.Located path
  | _, _, _, _, .scalar => located_ofCoerced
  | _, _, _, _, .enum => located_ofCoerced
  | _, _, _, _, .object completes => completes.located
  | _, _, _, _, .interface completes => completes.located
  | _, _, _, _, .union completes => completes.located
  | _, _, _, _, .input => .failed rfl
  | _, _, _, _, .unknown => .failed rfl

theorem CompletesAbstract.located {merged : MergedField} {site : FieldSite} {name : String} :
    {type : TypeDefinition ρ} → {value : Json} → {path : Path} → {trace : Trace} →
    setting.CompletesAbstract merged site name type value path trace → trace.Located path
  | _, _, _, _, .resolved _ completes => completes.located
  | _, _, _, _, .unresolved _ => .failed rfl

theorem CompletesItems.located {merged : MergedField} {site : FieldSite} {item : TypeRef}
    {path : Path} : {position : Nat} → {values : List Json} → {traces : List Trace} →
    setting.CompletesItems merged site item path position values traces →
    ∀ index (trace : Trace), traces[index]? = some trace →
      trace.Located (path ++ [.index (position + index)])
  | _, _, _, .nil, index, trace, found => by simp at found
  | _, _, _, .cons first others, 0, trace, found => by
      cases found
      exact first.located
  | position, _, _, .cons first others, index + 1, trace, found => by
      have located := others.located index trace found
      rw [Nat.add_assoc, Nat.add_comm 1] at located
      exact located

theorem CompletesObject.located {merged : MergedField} : {object : ObjectDefinition ρ} →
    {value : Json} → {path : Path} → {trace : Trace} →
    setting.CompletesObject merged object value path trace → trace.Located path
  | _, _, _, _, .fields collected all => located_fields collected all all.located
  | _, _, _, _, .invalidSelections _ => .failed rfl

theorem CompletesFields.located : {object : ObjectDefinition ρ} → {parent : Json} →
    {path : Path} → {fields : FieldMap} → {traces : List (FieldPlace × Trace)} →
    setting.CompletesFields object parent path fields traces →
    ∀ field ∈ traces, field.2.Located (path ++ [.key field.1.key])
  | _, _, _, _, _, .nil, field, member => by simp at member
  | _, _, _, _, _, .cons first others, field, member => by
      have head := first.located
      have tail := others.located
      rcases List.mem_cons.mp member with rfl | member
      · exact head
      · exact tail field member

theorem CompletesField.located : {object : ObjectDefinition ρ} → {parent : Json} →
    {path : Path} → {merged : MergedField} → {type : Option TypeRef} → {trace : Trace} →
    setting.CompletesField object parent path merged type trace → trace.Located path
  | _, _, _, _, _, _, .typeName _ => .leaf
  | _, _, _, _, _, _, .undefined _ _ => .failed rfl
  | _, _, _, _, _, _, .defined _ _ completes => completes.located

theorem CompletesDefined.located : {object : ObjectDefinition ρ} → {parent : Json} →
    {path : Path} → {merged : MergedField} → {field : FieldDefinition ρ} → {trace : Trace} →
    setting.CompletesDefined object parent path merged field trace → trace.Located path
  | _, _, _, _, _, _, .refused _ => .failed rfl
  | _, _, _, _, _, _, .failed _ _ => .failed rfl
  | _, _, _, _, _, _, .resolved _ _ completes => completes.located

end

end Setting

/-- Whatever the order in which things happen, the errors are those of the places where
something failed, and each puts a null at its nearest nullable place or above. Every
other null was given by a resolver, by the parent value or by the coercion of a leaf. -/
theorem Schema.MayReport.errors_match_nulls {σ : Type} {schema : Schema (Resolver σ)}
    {configuration : Configuration} {document : Document} {request : Request} {context : Context}
    {state : σ} {report : Report σ}
    (reports : schema.MayReport configuration document request context state report) {data : Json}
    (present : report.response.data = some data) :
    ∃ preparation traces,
      schema.prepare configuration document request context = .ok preparation ∧
      preparation.execution.setting.CompletesFields preparation.root request.rootValue []
        preparation.fields traces ∧
      data = (Trace.object traces).outcome.toData ∧
      (report.response.errors.getD []).Perm
        ((Trace.object traces).faults.map FieldFault.toError) ∧
      (∀ error ∈ report.response.errors.getD [], ∃ type fault nearest upper,
        (Trace.object traces).at? none error.path = some (type, .failed fault) ∧
        error = fault.toError ∧ (Trace.object traces).IsNearestNullable error.path nearest ∧
        upper <+: nearest ∧ data.at? upper = some .null) ∧
      ∀ place, data.at? place = some .null →
        (Trace.object traces).GivesNull place ∨ ∃ error ∈ report.response.errors.getD [],
          (Trace.object traces).IsNearestNullable error.path place := by
  rcases reports.exists_trace present with ⟨preparation, traces, prepared, completes, rfl, errors⟩
  rcases exists_plan_of_prepare prepared with ⟨plan, planned, rfl⟩
  have located : (Trace.object traces).Located [] :=
    Setting.located_fields (answers_of_plan planned).fields completes completes.located
  refine ⟨_, traces, prepared, completes, rfl, errors, ?_, ?_⟩
  · intro error member
    rcases List.mem_map.mp (errors.mem_iff.mp member) with ⟨fault, inside, rfl⟩
    rcases located.distinct.mem_faults_iff.mp inside with ⟨path, fails⟩
    have place : fault.toError.path = path := located.path_eq fails
    rw [place]
    rcases fails.at? none with ⟨type, found⟩
    rcases fails.brings_null none with bubbles | ⟨nearest, data, upper, same, settled, above, null⟩
    · have settled := Trace.json?_settleAt_none (Trace.object traces).outcome
      rw [bubbles] at settled
      cases settled
    · rw [Trace.json?_settleAt_none, Option.some.injEq] at settled
      subst settled
      exact ⟨type, fault, nearest, upper, found, rfl, Trace.isNearestNullable_of_nearest? same,
        above, null⟩
  · intro place null
    rcases located.distinct.null_cases (Trace.json?_settleAt_none _) null with
      gives | ⟨path, fault, fails, _, nearest⟩
    · exact .inl gives
    · have inside := located.distinct.mem_faults_iff.mpr ⟨path, fails⟩
      refine .inr ⟨fault.toError, errors.mem_iff.mpr (List.mem_map_of_mem inside), ?_⟩
      have place : fault.toError.path = path := located.path_eq fails
      rw [place]
      exact Trace.isNearestNullable_of_nearest? nearest

theorem Visit.nameless_guest :
    (schema (.pure answer)).MayReport .standard document request [] () report ∧
      report.response.data = some data ∧
      ∃ preparation traces,
        (schema (.pure answer : Resolver Unit)).prepare .standard document request [] =
          .ok preparation ∧
        preparation.execution.setting.CompletesFields preparation.root .null []
          preparation.fields traces ∧
        data = (Trace.object traces).outcome.toData ∧
        [nameless.toError].Perm ((Trace.object traces).faults.map FieldFault.toError) ∧
        (∀ error ∈ [nameless.toError], ∃ type fault nearest upper,
          (Trace.object traces).at? none error.path = some (type, .failed fault) ∧
          error = fault.toError ∧ (Trace.object traces).IsNearestNullable error.path nearest ∧
          upper <+: nearest ∧ data.at? upper = some .null) ∧
        ∀ place, data.at? place = some .null →
          (Trace.object traces).GivesNull place ∨ ∃ error ∈ [nameless.toError],
            (Trace.object traces).IsNearestNullable error.path place :=
  ⟨mayReport, rfl, mayReport.errors_match_nulls rfl⟩

end GraphQuery
