import GraphQuery.Proofs.Execution.Reports

/-! A request is refused as a whole or carried out: the forms that a response can have, and
the steps of which the first that fails refuses a request before anything is resolved. -/

namespace GraphQuery

/-! ## Forms of responses -/

inductive ResponseForm where
  /-- Neither data nor errors. -/
  | empty
  /-- A single error in the place of data. -/
  | refusal
  /-- Data, with the errors of single places if there are any. -/
  | result
deriving DecidableEq

def Response.HasForm (response : Response) : ResponseForm → Prop
  | .empty => response.data = none ∧ response.errors = none
  | .refusal => ∃ error, response = .ofErrors [error]
  | .result => response.data.isSome = true ∧ response.errors ≠ some []

namespace Response

variable {response : Response}

theorem HasForm.unique {form other : ResponseForm} (first : response.HasForm form)
    (second : response.HasForm other) : form = other := by
  cases form with
  | empty =>
      cases other with
      | empty => rfl
      | refusal =>
          obtain ⟨error, rfl⟩ := second
          cases first.2
      | result => cases first.1 ▸ second.1
  | refusal =>
      obtain ⟨error, rfl⟩ := first
      cases other with
      | empty => cases second.2
      | refusal => rfl
      | result => cases second.1
  | result =>
      cases other with
      | empty => cases second.1 ▸ first.1
      | refusal =>
          obtain ⟨error, rfl⟩ := second
          cases first.1
      | result => rfl

theorem hasForm_empty : HasForm .empty .empty := ⟨rfl, rfl⟩

theorem hasForm_refusal (error : ResponseError) : HasForm (.ofErrors [error]) .refusal :=
  ⟨error, rfl⟩

theorem hasForm_result (data : Json) (errors : List ResponseError) :
    ((Response.ofData data).withErrors errors).HasForm .result := by
  refine ⟨rfl, ?_⟩
  cases errors with
  | nil => simp [withErrors]
  | cons error rest => simp [withErrors]

end Response

/-! ## The steps before anything is resolved -/

namespace Schema

section Steps

variable {ρ : Type}

/-- The steps that a document with operations goes through before it is carried out, in
their order. Each fault is that of the first step which fails. -/
inductive Refuses (schema : Schema ρ) (configuration : Configuration) (document : Document)
    (request : Request) : OperationFault → Prop where
  | spreads {fault : SelectionFault} (fails : document.checkSpreads = .error fault) :
      Refuses schema configuration document request (.selections fault)
  | operation {fault : OperationFault} (spreads : document.checkSpreads = .ok ())
      (fails : document.selectOperation request.operationName = .error fault) :
      Refuses schema configuration document request fault
  | root {operation : OperationDefinition} (spreads : document.checkSpreads = .ok ())
      (selected : document.selectOperation request.operationName = .ok operation)
      (fails : schema.root? operation.kind = none) :
      Refuses schema configuration document request (.unsupported operation.kind)
  | bindings {operation : OperationDefinition} {root : ObjectDefinition ρ} {fault : VariableFault}
      (spreads : document.checkSpreads = .ok ())
      (selected : document.selectOperation request.operationName = .ok operation)
      (supported : schema.root? operation.kind = some root)
      (fails : schema.coerceVariables operation.variableDefinitions request.variableValues =
        .error fault) :
      Refuses schema configuration document request (.binding fault)
  | depth {operation : OperationDefinition} {root : ObjectDefinition ρ} {bindings : Variables}
      {limit : Nat} (spreads : document.checkSpreads = .ok ())
      (selected : document.selectOperation request.operationName = .ok operation)
      (supported : schema.root? operation.kind = some root)
      (bound : schema.coerceVariables operation.variableDefinitions request.variableValues =
        .ok bindings)
      (limited : configuration.maxDepth = some limit)
      (fails : limit < operation.selectionSet.depth document.fragments) :
      Refuses schema configuration document request
        (.tooDeep (operation.selectionSet.depth document.fragments) limit)
  | fields {operation : OperationDefinition} {root : ObjectDefinition ρ} {bindings : Variables}
      {fault : SelectionFault} (spreads : document.checkSpreads = .ok ())
      (selected : document.selectOperation request.operationName = .ok operation)
      (supported : schema.root? operation.kind = some root)
      (bound : schema.coerceVariables operation.variableDefinitions request.variableValues =
        .ok bindings)
      (within : ∀ limit, configuration.maxDepth = some limit →
        operation.selectionSet.depth document.fragments ≤ limit)
      (fails : (⟨schema, root, document.fragments, bindings⟩ : Expansion ρ).merge
        [operation.selectionSet] = .error fault) :
      Refuses schema configuration document request (.selections fault)

variable {schema : Schema ρ} {configuration : Configuration} {document : Document}
  {request : Request} {fault : OperationFault}

theorem checkDepth_eq_ok {limit : Option Nat} {depth : Nat}
    (within : ∀ most, limit = some most → depth ≤ most) : checkDepth limit depth = .ok () := by
  cases limit with
  | none => rfl
  | some most => simp [checkDepth, within most rfl]

theorem le_of_checkDepth {limit : Option Nat} {depth : Nat}
    (checked : checkDepth limit depth = .ok ()) : ∀ most, limit = some most → depth ≤ most := by
  rintro most rfl
  by_contra exceeds
  simp [checkDepth, Nat.lt_of_not_le exceeds] at checked

theorem exists_of_checkDepth_eq_error {limit : Option Nat} {depth : Nat}
    (failed : checkDepth limit depth = .error fault) :
    ∃ most, limit = some most ∧ most < depth ∧ fault = .tooDeep depth most := by
  cases limit with
  | none => cases failed
  | some most =>
      simp only [checkDepth] at failed
      split at failed
      · rename_i exceeds
        cases failed
        exact ⟨most, rfl, exceeds, rfl⟩
      · cases failed

theorem refuses_of_plan (failed : schema.plan configuration document request = .error fault) :
    schema.Refuses configuration document request fault := by
  rcases Except.of_bind_error failed with failed | ⟨⟨⟩, spreads, failed⟩
  · obtain ⟨cause, fails, rfl⟩ := Except.exists_of_mapError failed
    exact .spreads fails
  have spreads := Except.eq_ok_of_mapError spreads
  rcases Except.of_bind_error failed with failed | ⟨operation, selected, failed⟩
  · exact .operation spreads failed
  cases supported : schema.root? operation.kind with
  | none =>
      simp only [supported, Option.elim_none] at failed
      cases failed
      exact .root spreads selected supported
  | some root =>
      simp only [supported, Option.elim_some, Except.ok_bind] at failed
      rcases Except.of_bind_error failed with failed | ⟨bindings, bound, failed⟩
      · obtain ⟨cause, fails, rfl⟩ := Except.exists_of_mapError failed
        exact .bindings spreads selected supported fails
      have bound := Except.eq_ok_of_mapError bound
      rcases Except.of_bind_error failed with failed | ⟨⟨⟩, checked, failed⟩
      · obtain ⟨limit, limited, exceeds, rfl⟩ := exists_of_checkDepth_eq_error failed
        exact .depth spreads selected supported bound limited exceeds
      rcases Except.of_bind_error failed with failed | ⟨fields, _, failed⟩
      · obtain ⟨cause, fails, rfl⟩ := Except.exists_of_mapError failed
        exact .fields spreads selected supported bound (le_of_checkDepth checked) fails
      · cases failed

theorem Refuses.plan (refuses : schema.Refuses configuration document request fault) :
    schema.plan configuration document request = .error fault := by
  cases refuses with
  | spreads fails =>
      simp only [Schema.plan, fails]
      rfl
  | operation spreads fails =>
      simp only [Schema.plan, spreads, fails]
      rfl
  | root spreads selected fails =>
      simp only [Schema.plan, spreads, selected, Except.mapError, Except.ok_bind, fails]
      rfl
  | bindings spreads selected supported fails =>
      simp only [Schema.plan, spreads, selected, supported, Except.mapError, Except.ok_bind,
        Option.elim_some, fails]
      rfl
  | depth spreads selected supported bound limited fails =>
      simp only [Schema.plan, spreads, selected, supported, bound, Except.mapError, Except.ok_bind,
        Option.elim_some, limited, checkDepth, if_pos fails]
      rfl
  | fields spreads selected supported bound within fails =>
      simp only [Schema.plan, spreads, selected, supported, bound, Except.mapError, Except.ok_bind,
        Option.elim_some, checkDepth_eq_ok within, fails]
      rfl

theorem Refuses.unique {other : OperationFault}
    (refuses : schema.Refuses configuration document request fault)
    (otherwise : schema.Refuses configuration document request other) : fault = other := by
  have same := refuses.plan.symm.trans otherwise.plan
  cases same
  rfl

/-- The steps of a whole request: that its query is read, and those of a document with
operations. -/
inductive FirstFault (schema : Schema ρ) (configuration : Configuration) (request : Request) :
    OperationFault → Prop where
  | parsing {error : SyntaxError} (malformed : Document.parse request.query = .error error) :
      FirstFault schema configuration request (.malformed error)
  | later {document : Document} {fault : OperationFault}
      (parsed : Document.parse request.query = .ok document) (something : document.operations ≠ [])
      (refuses : schema.Refuses configuration document request fault) :
      FirstFault schema configuration request fault

theorem FirstFault.unique {other : OperationFault}
    (first : schema.FirstFault configuration request fault)
    (second : schema.FirstFault configuration request other) : fault = other := by
  cases first with
  | parsing malformed =>
      cases second with
      | parsing otherwise =>
          rw [malformed] at otherwise
          cases otherwise
          rfl
      | later parsed =>
          rw [malformed] at parsed
          cases parsed
  | later parsed something refuses =>
      cases second with
      | parsing malformed =>
          rw [malformed] at parsed
          cases parsed
      | later otherwise _ second =>
          rw [parsed] at otherwise
          cases otherwise
          exact refuses.unique second

theorem FirstFault.operations_ne_nil (first : schema.FirstFault configuration request fault)
    (parsed : Document.parse request.query = .ok document) : document.operations ≠ [] := by
  cases first with
  | parsing malformed =>
      rw [malformed] at parsed
      cases parsed
  | later otherwise something _ =>
      rw [parsed] at otherwise
      cases otherwise
      exact something

/-! ## Faults are not the cancellation -/

theorem Refuses.ne_cancelled (refuses : schema.Refuses configuration document request fault) :
    fault ≠ .cancelled := by
  cases refuses with
  | operation spreads fails =>
      rintro rfl
      simp only [Document.selectOperation] at fails
      split at fails
      · split at fails <;> cases fails
      · cases fails
      · cases fails
  | _ => simp

theorem FirstFault.ne_cancelled (first : schema.FirstFault configuration request fault) :
    fault ≠ .cancelled := by
  cases first with
  | parsing => simp
  | later _ _ refuses => exact refuses.ne_cancelled

end Steps

end Schema

theorem head?_toList_append {first second : String} {letter : Char}
    (begins : first.toList.head? = some letter) :
    (first ++ second).toList.head? = some letter := by
  rw [String.toList_append, List.head?_append, begins]
  rfl

/-- The messages that come without a location begin with letters of their own. -/
theorem OperationFault.head?_message_ne {fault : OperationFault} (different : fault ≠ .cancelled)
    (unplaced : fault.location? = none) : fault.message.toList.head? ≠ some 'R' := by
  cases fault with
  | cancelled => exact absurd rfl different
  | malformed error => cases unplaced
  | selections fault => cases unplaced
  | binding fault => cases unplaced
  | unknownOperation name =>
      have begins : (OperationFault.unknownOperation name).message.toList.head? = some 'U' :=
        head?_toList_append (head?_toList_append rfl)
      simp [begins]
  | ambiguousOperation =>
      have begins : OperationFault.ambiguousOperation.message.toList.head? = some 'M' := rfl
      simp [begins]
  | unsupported kind =>
      have begins : (OperationFault.unsupported kind).message.toList.head? = some 'S' :=
        head?_toList_append (head?_toList_append rfl)
      simp [begins]
  | tooDeep depth limit =>
      have begins : (OperationFault.tooDeep depth limit).message.toList.head? = some 'Q' :=
        head?_toList_append (head?_toList_append (head?_toList_append rfl))
      simp [begins]

theorem OperationFault.toError_ne_cancelled {fault : OperationFault}
    (different : fault ≠ .cancelled) : fault.toError ≠ OperationFault.cancelled.toError := by
  intro same
  have locations : fault.location?.toList = [] := congrArg ResponseError.locations same
  have message : fault.message.toList.head? = some 'R' :=
    congrArg (fun error => error.message.toList.head?) same
  exact head?_message_ne different (Option.toList_eq_nil_iff.mp locations) message

/-! ## Requests -/

section Requests

variable {σ : Type}

/-- The reports that a request can have, whatever the order in which its parts go on. -/
inductive Schema.MayRespond (schema : Schema (Resolver σ)) (configuration : Configuration)
    (request : Request) (context : Context) (state : σ) : Report σ → Prop where
  | malformed {error : SyntaxError} (refused : Document.parse request.query = .error error) :
      MayRespond schema configuration request context state
        ⟨.ofErrors [(OperationFault.malformed error).toError], ⟨⟨state, request.cancelled⟩, []⟩⟩
  | parsed {document : Document} {report : Report σ}
      (parsed : Document.parse request.query = .ok document)
      (reports : schema.MayReport configuration document request context state report) :
      MayRespond schema configuration request context state report

/-- What can come of a request: nothing to do, a refusal before anything has happened, a
refusal since the request was cancelled on the way, or data. -/
inductive Schema.Concludes (schema : Schema (Resolver σ)) (configuration : Configuration)
    (request : Request) (state : σ) : Report σ → Prop where
  | empty {document : Document} (parsed : Document.parse request.query = .ok document)
      (nothing : document.operations = []) :
      Concludes schema configuration request state ⟨.empty, ⟨⟨state, request.cancelled⟩, []⟩⟩
  | refused {fault : OperationFault} (first : schema.FirstFault configuration request fault) :
      Concludes schema configuration request state
        ⟨.ofErrors [fault.toError], ⟨⟨state, request.cancelled⟩, []⟩⟩
  | cancelled {session : Session σ} (withdrawn : session.shared.cancelled = true)
      (passed : ∀ fault, ¬ schema.FirstFault configuration request fault)
      (something : ∀ document, Document.parse request.query = .ok document →
        document.operations ≠ []) :
      Concludes schema configuration request state
        ⟨.ofErrors [OperationFault.cancelled.toError], session⟩
  | answered {session : Session σ} (data : Json) (errors : List ResponseError)
      (passed : ∀ fault, ¬ schema.FirstFault configuration request fault)
      (something : ∀ document, Document.parse request.query = .ok document →
        document.operations ≠ []) :
      Concludes schema configuration request state
        ⟨(Response.ofData data).withErrors errors, session⟩

namespace Schema

variable {schema : Schema (Resolver σ)} {configuration : Configuration} {request : Request}
  {context : Context} {state : σ} {report : Report σ}

theorem mayRespond_execute (schema : Schema (Resolver σ)) (configuration : Configuration)
    (request : Request) (context : Context) (state : σ) :
    schema.MayRespond configuration request context state
      (schema.execute configuration request context state) := by
  unfold execute
  cases parsed : Document.parse request.query with
  | error error => exact .malformed parsed
  | ok document => exact .parsed parsed (mayReport_executeDocument ..)

theorem refuses_of_prepare {document : Document} {fault : OperationFault}
    (failed : schema.prepare configuration document request context = .error fault) :
    schema.Refuses configuration document request fault := by
  rw [prepare_eq_plan] at failed
  cases planned : schema.plan configuration document request with
  | error cause =>
      rw [planned] at failed
      cases failed
      exact refuses_of_plan planned
  | ok plan =>
      rw [planned] at failed
      cases failed

theorem not_firstFault_of_prepare {document : Document} {preparation : Preparation σ}
    (parsed : Document.parse request.query = .ok document)
    (prepared : schema.prepare configuration document request context = .ok preparation)
    (fault : OperationFault) : ¬ schema.FirstFault configuration request fault := by
  obtain ⟨plan, planned, _⟩ := exists_plan_of_prepare prepared
  intro first
  cases first with
  | parsing malformed =>
      rw [parsed] at malformed
      cases malformed
  | later otherwise _ refuses =>
      rw [parsed] at otherwise
      cases otherwise
      have failed := refuses.plan
      rw [planned] at failed
      cases failed

theorem MayRespond.concludes
    (responds : schema.MayRespond configuration request context state report) :
    schema.Concludes configuration request state report := by
  cases responds with
  | malformed refused => exact .refused (.parsing refused)
  | @parsed document report parsed reports =>
      cases reports with
      | empty nothing => exact .empty parsed (List.isEmpty_iff.mp nothing)
      | refused something failed =>
          apply Concludes.refused
          exact .later parsed (List.isEmpty_eq_false_iff.mp something) (refuses_of_prepare failed)
      | @carriedOut preparation arrange outcome final something prepared arranged reaches =>
          have passed := not_firstFault_of_prepare parsed prepared
          have operations : ∀ other, Document.parse request.query = .ok other →
              other.operations ≠ [] := by
            intro other again
            rw [parsed] at again
            cases again
            exact List.isEmpty_eq_false_iff.mp something
          unfold Response.ofOutcome
          cases withdrawn : final.shared.cancelled with
          | true => exact .cancelled withdrawn passed operations
          | false => exact .answered outcome.toData _ passed operations

namespace Concludes

theorem hasForm_empty_iff (concludes : schema.Concludes configuration request state report) :
    report.response.HasForm .empty ↔
      ∃ document, Document.parse request.query = .ok document ∧ document.operations = [] := by
  cases concludes with
  | empty parsed nothing => exact iff_of_true Response.hasForm_empty ⟨_, parsed, nothing⟩
  | refused first =>
      apply iff_of_false
      · exact fun form => nomatch form.unique (Response.hasForm_refusal _)
      · rintro ⟨document, parsed, nothing⟩
        exact first.operations_ne_nil parsed nothing
  | cancelled _ _ something =>
      apply iff_of_false
      · exact fun form => nomatch form.unique (Response.hasForm_refusal _)
      · rintro ⟨document, parsed, nothing⟩
        exact something document parsed nothing
  | answered data errors _ something =>
      apply iff_of_false
      · exact fun form => nomatch form.unique (Response.hasForm_result data errors)
      · rintro ⟨document, parsed, nothing⟩
        exact something document parsed nothing

theorem exists_form (concludes : schema.Concludes configuration request state report) :
    ∃ form, report.response.HasForm form := by
  cases concludes with
  | empty => exact ⟨_, Response.hasForm_empty⟩
  | refused => exact ⟨_, Response.hasForm_refusal _⟩
  | cancelled => exact ⟨_, Response.hasForm_refusal _⟩
  | answered data errors => exact ⟨_, Response.hasForm_result data errors⟩

theorem cancelled_or_untouched (concludes : schema.Concludes configuration request state report)
    {error : ResponseError} (refusal : report.response = .ofErrors [error]) :
    error = OperationFault.cancelled.toError ∧ report.session.shared.cancelled = true ∨
      report.session = ⟨⟨state, request.cancelled⟩, []⟩ := by
  cases concludes with
  | empty => exact .inr rfl
  | refused => exact .inr rfl
  | cancelled withdrawn =>
      cases refusal
      exact .inl ⟨rfl, withdrawn⟩
  | answered => cases refusal

theorem refusal_iff (concludes : schema.Concludes configuration request state report)
    {error : ResponseError} (different : error ≠ OperationFault.cancelled.toError) :
    report.response = .ofErrors [error] ↔
      ∃ fault, schema.FirstFault configuration request fault ∧ fault.toError = error := by
  constructor
  · intro refusal
    cases concludes with
    | empty => cases refusal
    | @refused fault first =>
        cases refusal
        exact ⟨fault, first, rfl⟩
    | cancelled =>
        cases refusal
        exact absurd rfl different
    | answered => cases refusal
  · rintro ⟨fault, first, rfl⟩
    cases concludes with
    | empty parsed nothing => exact absurd nothing (first.operations_ne_nil parsed)
    | refused other => rw [other.unique first]
    | cancelled _ passed => exact absurd first (passed fault)
    | answered _ _ passed => exact absurd first (passed fault)

end Concludes

/-- A request is refused as a whole, with the fault of the first step that fails and before
anything has happened, or it is cancelled, or else it has data. -/
theorem MayRespond.refused_or_answered
    (responds : schema.MayRespond configuration request context state report) :
    (∃! form, report.response.HasForm form) ∧
    (report.response.HasForm .empty ↔
      ∃ document, Document.parse request.query = .ok document ∧ document.operations = []) ∧
    (∀ error, report.response = .ofErrors [error] →
      error = OperationFault.cancelled.toError ∧ report.session.shared.cancelled = true ∨
        report.session = ⟨⟨state, request.cancelled⟩, []⟩) ∧
    ((∃ error, error ≠ OperationFault.cancelled.toError ∧ report.response = .ofErrors [error]) ↔
      ∃ fault, schema.FirstFault configuration request fault) ∧
    ∀ fault, schema.FirstFault configuration request fault →
      report.response = .ofErrors [fault.toError] := by
  have concludes := responds.concludes
  have errors : ∀ fault, schema.FirstFault configuration request fault →
      report.response = .ofErrors [fault.toError] := by
    intro fault first
    have different := OperationFault.toError_ne_cancelled first.ne_cancelled
    exact (concludes.refusal_iff different).mpr ⟨fault, first, rfl⟩
  refine ⟨?_, concludes.hasForm_empty_iff, fun _ => concludes.cancelled_or_untouched, ?_, errors⟩
  · obtain ⟨form, has⟩ := concludes.exists_form
    exact ⟨form, has, fun other holds => holds.unique has⟩
  · constructor
    · rintro ⟨error, different, refusal⟩
      obtain ⟨fault, first, _⟩ := (concludes.refusal_iff different).mp refusal
      exact ⟨fault, first⟩
    · rintro ⟨fault, first⟩
      exact ⟨fault.toError, OperationFault.toError_ne_cancelled first.ne_cancelled,
        errors fault first⟩

end Schema

end Requests

/-! ## An operation that is not there -/

namespace Visit

variable {ρ : Type}

def headUpTo (name : String) (start stop after : Nat) : FieldHead :=
  { head name start stop with span := ⟨start, after⟩ }

def short : Document where
  definitions :=
    [.operation
      { operation with
        selectionSet :=
          ⟨[.branch (headUpTo "host" 1 5 12) [.leaf (headUpTo "name" 6 10 11)] ⟨5, 12⟩], ⟨0, 12⟩⟩
        span := ⟨0, 12⟩ }]
  span := ⟨0, 12⟩

def stranger : Request :=
  { Request.ofQuery "{host{name}}" with operationName := some "Nobody" }

theorem parse_stranger : Document.parse stranger.query = .ok short := by
  cbv

theorem firstFault_stranger (resolver : ρ) :
    (schema resolver).FirstFault .standard stranger (.unknownOperation "Nobody") := by
  apply Schema.FirstFault.later parse_stranger
  · simp [short, Document.operations]
  · apply Schema.Refuses.operation
    · cbv
    · rfl

theorem stranger_is_refused :
    let report := (schema (.pure answer)).execute .standard stranger [] ()
    report.response = .ofErrors [⟨"Unknown operation named \"Nobody\"", [], []⟩] ∧
      report.session = ⟨⟨(), false⟩, []⟩ := by
  have responds := Schema.mayRespond_execute (schema (.pure answer)) .standard stranger [] ()
  have forms := responds.refused_or_answered
  have first := firstFault_stranger (.pure answer : Resolver Unit)
  have refused := forms.2.2.2.2 _ first
  constructor
  · exact refused
  · rcases forms.2.2.1 _ refused with ⟨same, _⟩ | untouched
    · exact absurd same (OperationFault.toError_ne_cancelled first.ne_cancelled)
    · exact untouched

end Visit

end GraphQuery
