import GraphQuery.Execution.Field
import GraphQuery.Proofs.Execution.Completes
import GraphQuery.Proofs.Execution.Ends
import GraphQuery.Proofs.Execution.NullPropagation
import GraphQuery.Proofs.Selection.MergedFields

/-! The work of a request keeps to the rules of completion: what it ends in and the
faults that it tells are those of a trace. -/

namespace GraphQuery

variable {σ : Type}

def Event.fault? : Event → Option FieldFault
  | .failed fault => some fault
  | _ => none

theorem Event.eq_failed_of_fault? {event : Event} {fault : FieldFault}
    (found : event.fault? = some fault) : event = .failed fault := by
  cases event with
  | failed => exact congrArg Event.failed (Option.some.inj found)
  | _ => cases found

theorem Session.faults_eq_filterMap (session : Session σ) :
    session.faults = session.events.filterMap Event.fault? := by
  unfold Session.faults
  congr 1

structure Trace.Tells (trace : Trace) (events : List Event) (outcome : Outcome) : Prop where
  outcome : outcome = trace.outcome
  faults : events.filterMap Event.fault? = trace.faults

namespace Execution

open Work

/-- A resolver can answer whatever its resolution can come to. -/
def setting (execution : Execution σ) : Setting (Resolver σ) where
  schema := execution.schema
  fragments := execution.fragments
  bindings := execution.bindings
  context := execution.context
  Answers field call result := (execution.resolution field call).MayAnswer result

variable {execution : Execution σ} {merged : MergedField}

theorem eq_of_ends_fail {site : FieldSite} {path : Path} {cause : FieldCause}
    {failed outcome : Outcome} {events : List Event}
    (ends : Ends true (site.fail (σ := σ) path cause failed) events outcome) :
    events = [.failed ⟨cause, site.location, path⟩] ∧ outcome = failed := by
  cases ends with
  | record ends =>
      cases ends
      exact ⟨rfl, rfl⟩

theorem tells_failed {site : FieldSite} {path : Path} {cause : FieldCause} {outcome : Outcome}
    {events : List Event}
    (ends : Ends true (site.fail (σ := σ) path cause .bubble) events outcome) :
    (Trace.failed ⟨cause, site.location, path⟩).Tells events outcome := by
  rcases eq_of_ends_fail ends with ⟨rfl, rfl⟩
  exact ⟨rfl, rfl⟩

/-- The work on an object keeps to the rules for the selections of a merged field. -/
def Keeps (execution : Execution σ) (merged : MergedField) (below : ObjectWork σ) : Prop :=
  ∀ object value path events outcome, Ends true (below object value path) events outcome →
    ∃ trace, execution.setting.CompletesObject merged object value path trace ∧
      trace.Tells events outcome

/-! ## Values -/

section Values

variable {site : FieldSite} {below : ObjectWork σ}

theorem tells_leaf {path : Path} {coerced : Coerced} {events : List Event} {outcome : Outcome}
    (ends : Ends true (Completion.leaf ⟨execution.schema, execution.context, site, below⟩ path
      coerced) events outcome) : (Trace.ofCoerced site path coerced).Tells events outcome := by
  cases coerced with
  | error fault => exact tells_failed ends
  | ok result =>
      cases result with
      | _ =>
          cases ends
          exact ⟨rfl, rfl⟩

theorem completes_abstractly (keeps : execution.Keeps merged below) {name : String} {value : Json}
    {path : Path} {type : TypeDefinition (Resolver σ)} {events : List Event} {outcome : Outcome}
    (ends : Ends true (Completion.abstractly ⟨execution.schema, execution.context, site, below⟩
      type name value path) events outcome) :
    ∃ trace, execution.setting.CompletesAbstract merged site name type value path trace ∧
      trace.Tells events outcome := by
  simp only [Completion.abstractly] at ends
  split at ends
  · rename_i object resolved
    rcases keeps _ _ _ _ _ ends with ⟨trace, completes, tells⟩
    exact ⟨trace, .resolved resolved completes, tells⟩
  · rename_i unresolved
    exact ⟨_, .unresolved unresolved, tells_failed ends⟩

theorem completes_named (keeps : execution.Keeps merged below) {name : String} {value : Json}
    {path : Path} {events : List Event} {outcome : Outcome}
    (ends : Ends true (Completion.named ⟨execution.schema, execution.context, site, below⟩
      name value path) events outcome) :
    ∃ trace, execution.setting.CompletesNamed merged site name (execution.schema.type? name) value
      path trace ∧ trace.Tells events outcome := by
  simp only [Completion.named] at ends
  cases found : execution.schema.type? name with
  | none =>
      rw [found] at ends
      exact ⟨_, .unknown, tells_failed ends⟩
  | some type =>
      rw [found] at ends
      cases type with
      | scalar scalar => exact ⟨_, .scalar, tells_leaf ends⟩
      | enum enum => exact ⟨_, .enum, tells_leaf ends⟩
      | object object =>
          rcases keeps _ _ _ _ _ ends with ⟨trace, completes, tells⟩
          exact ⟨trace, .object completes, tells⟩
      | interface interface =>
          rcases completes_abstractly keeps ends with ⟨trace, completes, tells⟩
          exact ⟨trace, .interface completes, tells⟩
      | union union =>
          rcases completes_abstractly keeps ends with ⟨trace, completes, tells⟩
          exact ⟨trace, .union completes, tells⟩
      | inputObject input => exact ⟨_, .input, tells_failed ends⟩

theorem completes_items {item : TypeRef}
    (each : ∀ value path events outcome, Ends true
      (Completion.unsettled ⟨execution.schema, execution.context, site, below⟩ item value path)
      events outcome → ∃ trace, execution.setting.Completes merged site item value path trace ∧
        trace.Tells events outcome)
    {path : Path} (position : Nat) {values : List Json} {events : List Event}
    {outcomes : List Outcome}
    (all : EndAll true
      (values.mapIdx fun index value =>
        (Completion.unsettled ⟨execution.schema, execution.context, site, below⟩ item value
          (path ++ [.index (position + index)])).map (Outcome.settle item)) events outcomes) :
    ∃ traces, execution.setting.CompletesItems merged site item path position values traces ∧
      outcomes = Trace.itemOutcomes item traces ∧
      events.filterMap Event.fault? = Trace.itemFaults traces := by
  induction values generalizing position events outcomes with
  | nil =>
      cases all
      exact ⟨[], .nil, rfl, rfl⟩
  | cons value rest induction =>
      rw [List.mapIdx_cons] at all
      cases all with
      | cons ends all =>
          rcases ends.of_map with ⟨between, ended, rfl⟩
          rcases each _ _ _ _ ended with ⟨trace, completes, tells⟩
          rcases induction (position + 1)
            (by simpa only [Nat.add_assoc, Nat.add_comm 1] using all)
            with ⟨traces, others, rfl, faults⟩
          refine ⟨trace :: traces, .cons completes others, ?_, ?_⟩
          · rw [Trace.itemOutcomes, Outcome.settleAt_some, tells.outcome]
          · rw [List.filterMap_append, tells.faults, faults, Trace.itemFaults]

theorem completes_unsettled (keeps : execution.Keeps merged below) (type : TypeRef) :
    ∀ value path events outcome, Ends true
      (Completion.unsettled ⟨execution.schema, execution.context, site, below⟩ type value path)
      events outcome → ∃ trace, execution.setting.Completes merged site type value path trace ∧
        trace.Tells events outcome := by
  induction type with
  | named name =>
      intro value path events outcome ends
      cases null : value.isNull with
      | true =>
          rw [Completion.unsettled, null, if_pos rfl] at ends
          rw [Json.isNull_iff] at null
          subst null
          cases ends
          exact ⟨.null, .null rfl, rfl, rfl⟩
      | false =>
          rw [Completion.unsettled, null] at ends
          rcases completes_named keeps ends with ⟨trace, completes, tells⟩
          exact ⟨trace, .named null rfl completes, tells⟩
  | list item induction =>
      intro value path events outcome ends
      simp only [Completion.unsettled] at ends
      split at ends
      · cases ends
        exact ⟨.null, .null rfl, rfl, rfl⟩
      · rename_i values
        cases ends with
        | group all ends =>
            cases ends
            rcases completes_items induction 0 (by simpa using all) with
              ⟨traces, items, rfl, faults⟩
            exact ⟨.list item traces, .list items, rfl, by simpa [Trace.faults] using faults⟩
      · rename_i notNull notArray
        have present : value.isNull = false := by
          cases null : value.isNull with
          | false => rfl
          | true => exact absurd (Json.isNull_iff.mp null) notNull
        exact ⟨_, .notList present notArray, tells_failed ends⟩
  | nonNull inner induction =>
      intro value path events outcome ends
      rw [Completion.unsettled] at ends
      rcases Ends.of_andThen _ ends with ⟨first, between, second, ended, following, rfl⟩
      rcases induction _ _ _ _ ended with ⟨trace, completes, tells⟩
      cases between with
      | null =>
          have null := Trace.eq_null_of_outcome tells.outcome.symm
          subst null
          rcases eq_of_ends_fail following with ⟨rfl, rfl⟩
          refine ⟨_, .refuse completes, rfl, ?_⟩
          rw [List.filterMap_append, tells.faults]
          rfl
      | _ =>
          cases following
          refine ⟨trace, .accept ?_ completes, tells.outcome, by simpa using tells.faults⟩
          rintro rfl
          cases tells.outcome

end Values

/-! ## Fields -/

theorem completes_definedField {below : ObjectWork σ} (keeps : execution.Keeps merged below)
    {object : ObjectDefinition (Resolver σ)} {parent : Json} {path : Path}
    {field : FieldDefinition (Resolver σ)} {events : List Event} {outcome : Outcome}
    (ends : (execution.definedField below object parent path merged field).Ends true events
      outcome) :
    ∃ trace between, execution.setting.CompletesDefined object parent path merged field trace ∧
      trace.Tells events between ∧ outcome = between.settle field.type := by
  unfold definedField at ends
  split at ends
  · rename_i fault refused
    rcases eq_of_ends_fail (Opening.ends_quiet.mp ends) with ⟨rfl, rfl⟩
    exact ⟨_, .bubble, .refused refused, ⟨rfl, rfl⟩, rfl⟩
  · rename_i arguments accepted
    rcases Opening.ends_calling.mp ends with ⟨later, rfl, following⟩
    rcases Ends.of_ofResolution _ following with ⟨result, answers, ended⟩
    cases ended with
    | record ended =>
        cases result with
        | error fault =>
            rcases eq_of_ends_fail ended with ⟨rfl, rfl⟩
            exact ⟨_, .bubble, .failed accepted answers, ⟨rfl, rfl⟩, rfl⟩
        | ok value =>
            rcases Ends.of_map ended with ⟨between, inner, rfl⟩
            rcases completes_unsettled keeps field.type _ _ _ _ inner with
              ⟨trace, completes, tells⟩
            exact ⟨trace, between, .resolved accepted answers completes,
              ⟨tells.outcome, tells.faults⟩, rfl⟩

theorem completes_field {below : MergedField → ObjectWork σ}
    (keeps : execution.Keeps merged (below merged)) {object : ObjectDefinition (Resolver σ)}
    {parent : Json} {path : Path} {events : List Event} {outcome : Outcome}
    (ends : Ends true (execution.field below object parent path merged) events outcome) :
    ∃ type trace, execution.setting.CompletesField object parent (path ++ [.key merged.key]) merged
      type trace ∧ outcome = trace.outcome.settleAt type ∧
      events.filterMap Event.fault? = trace.faults := by
  rcases Opening.ends_of_begin ends with ⟨cancelled, _⟩ | started
  · cases cancelled
  split at started
  · rename_i isTypeName
    cases Opening.ends_quiet.mp started
    exact ⟨_, _, .typeName isTypeName, rfl, rfl⟩
  · rename_i other
    split at started
    · rename_i missing
      rcases eq_of_ends_fail (Opening.ends_quiet.mp started) with ⟨rfl, rfl⟩
      exact ⟨_, _, .undefined other missing, rfl, rfl⟩
    · rename_i field defined
      rcases completes_definedField keeps started with
        ⟨trace, between, completes, tells, rfl⟩
      exact ⟨_, trace, .defined other defined completes,
        by rw [Outcome.settleAt_some, tells.outcome], tells.faults⟩

theorem completes_fields {below : MergedField → ObjectWork σ} {fields : FieldMap}
    (keeps : ∀ merged ∈ fields, execution.Keeps merged (below merged))
    {object : ObjectDefinition (Resolver σ)} {parent : Json} {path : Path} {events : List Event}
    {outcomes : List Outcome}
    (all : EndAll true (fields.map (execution.field below object parent path)) events outcomes) :
    ∃ traces, execution.setting.CompletesFields object parent path fields traces ∧
      outcomes = Trace.fieldOutcomes traces ∧
      events.filterMap Event.fault? = Trace.fieldFaults traces ∧
      fields.map MergedField.key = traces.map fun field => field.1.key := by
  induction fields generalizing events outcomes with
  | nil =>
      cases all
      exact ⟨[], .nil, rfl, rfl, rfl⟩
  | cons merged rest induction =>
      cases all with
      | cons ends all =>
          rcases completes_field (keeps merged (by simp)) ends with
            ⟨type, trace, completes, rfl, faults⟩
          rcases induction (fun other member => keeps other (List.mem_cons_of_mem _ member)) all
            with ⟨traces, others, rfl, moreFaults, keys⟩
          refine ⟨_, .cons completes others, rfl, ?_, by rw [List.map_cons, List.map_cons, keys]⟩
          rw [List.filterMap_append, faults, moreFaults, Trace.fieldFaults]

def Arranges (arrange : List (Work σ) → (List Outcome → Work σ) → Work σ) : Prop :=
  ∀ works next events outcome, Ends true (arrange works next) events outcome →
    Ends true (.group works next) events outcome

theorem completes_arranged {below : MergedField → ObjectWork σ} {fields : FieldMap}
    {arrange : List (Work σ) → (List Outcome → Work σ) → Work σ} (arranges : Arranges arrange)
    (keeps : ∀ merged ∈ fields, execution.Keeps merged (below merged))
    {object : ObjectDefinition (Resolver σ)} {value : Json} {path : Path} {events : List Event}
    {outcome : Outcome}
    (ends : Ends true (execution.fields below arrange fields object value path) events outcome) :
    ∃ traces, execution.setting.CompletesFields object value path fields traces ∧
      (Trace.object traces).Tells events outcome := by
  cases arranges _ _ _ _ ends with
  | group all ends =>
      cases ends
      rcases completes_fields keeps all with ⟨traces, completes, rfl, faults, keys⟩
      refine ⟨traces, completes, ?_, ?_⟩
      · rw [Trace.outcome, ← keys]
      · simpa [Trace.faults] using faults

/-- There are levels enough for selections that are nested less deeply. -/
theorem keeps_object {levels depth : Nat} (enough : depth < levels) {merged : MergedField}
    (within : SelectionSet.AllWithin execution.fragments depth merged.selectionSets) :
    execution.Keeps merged (execution.object levels merged) := by
  induction levels generalizing depth merged with
  | zero => omega
  | succ levels induction =>
      intro object value path events outcome ends
      simp only [Execution.object] at ends
      split at ends
      · rename_i fault refused
        exact ⟨_, .invalidSelections refused, tells_failed ends⟩
      · rename_i fields collected
        have keeps : ∀ merged ∈ fields,
            execution.Keeps merged (execution.object levels merged) := by
          intro inner member
          rcases Expansion.allWithin_selectionSets collected within member with
            ⟨fewer, rfl, below⟩
          exact induction (by omega) below
        rcases completes_arranged (fun _ _ _ _ ends => ends) keeps ends with
          ⟨traces, completes, tells⟩
        exact ⟨.object traces, .fields collected completes, tells⟩

end Execution

end GraphQuery
