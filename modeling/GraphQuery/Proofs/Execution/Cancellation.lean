import GraphQuery.Proofs.Execution.Journal
import GraphQuery.Proofs.Execution.Reports

/-! A request that is cancelled calls no further resolver, and its response tells of
nothing but the cancellation. -/

namespace GraphQuery

variable {σ : Type}

/-- The stages through which a request can go once its operation has been prepared. The
parts of the work go on in any order, and every wait may take any time. -/
inductive Schema.Underway (schema : Schema (Resolver σ)) (configuration : Configuration)
    (document : Document) (request : Request) (context : Context) (state : σ) :
    Work σ × Session σ → Prop where
  | intro {preparation : Preparation σ}
      {arrange : List (Work σ) → (List Outcome → Work σ) → Work σ} {stage : Work σ × Session σ}
      (prepared : schema.prepare configuration document request context = .ok preparation)
      (arranged : arrange = .group ∨ arrange = .inOrder)
      (reaches : Work.Reaches
        (preparation.workAs arrange request.rootValue, ⟨⟨state, request.cancelled⟩, []⟩) stage) :
      Underway schema configuration document request context state stage

theorem Response.ofOutcome_cancelled {outcome : Outcome} {session : Session σ}
    (cancelled : session.shared.cancelled = true) :
    Response.ofOutcome outcome session = .ofErrors [⟨"Request was cancelled", [], []⟩] := by
  rw [Response.ofOutcome, cancelled]
  rfl

theorem Response.not_mem_errors_ofOutcome {outcome : Outcome} {session : Session σ}
    (live : session.shared.cancelled = false) :
    ⟨"Request was cancelled", [], []⟩ ∉ (Response.ofOutcome outcome session).errors.getD [] := by
  rw [Response.ofOutcome, live, if_neg (by simp), Response.errors_withErrors,
    Session.errors_reporter]
  intro member
  rcases List.mem_map.mp member with ⟨fault, _, same⟩
  simp [FieldFault.toError] at same

namespace Schema

variable {schema : Schema (Resolver σ)} {configuration : Configuration} {document : Document}
  {request : Request} {context : Context} {state : σ}

theorem Underway.continues {work after : Work σ} {session later : Session σ}
    (underway : schema.Underway configuration document request context state (work, session))
    (reaches : Work.Reaches (work, session) (after, later)) :
    ∃ events, session.Continues (Event.Below []) later events := by
  cases underway with
  | @intro preparation arrange _ _ arranged begins =>
      have notes : (preparation.workAs arrange request.rootValue).Notes (Event.Below []) :=
        Execution.notes_fields (fun _ _ _ _ => Execution.notes_object _) arranged
      exact ((Work.Notes.of_reaches begins notes).1.of_reaches reaches).2

theorem Underway.mayReport {work : Work σ} {session final : Session σ} {outcome : Outcome}
    (underway : schema.Underway configuration document request context state (work, session))
    (reaches : Work.Reaches (work, session) (.done outcome, final)) :
    schema.MayReport configuration document request context state
      ⟨.ofOutcome outcome final, final⟩ := by
  cases underway with
  | intro prepared arranged begins =>
      exact .carriedOut (nonempty_of_prepare prepared) prepared arranged (begins.trans reaches)

theorem MayReport.underway {report : Report σ}
    (reports : schema.MayReport configuration document request context state report)
    {preparation : Preparation σ}
    (prepared : schema.prepare configuration document request context = .ok preparation) :
    ∃ outcome,
      schema.Underway configuration document request context state
        (.done outcome, report.session) ∧
      report.response = .ofOutcome outcome report.session := by
  cases reports with
  | empty nothing => cases (nonempty_of_prepare prepared).symm.trans nothing
  | refused _ refused => cases prepared.symm.trans refused
  | carriedOut _ prepared arranged reaches => exact ⟨_, .intro prepared arranged reaches, rfl⟩

/-- However the parts of the work go on, and wherever the request is cancelled, it stays
cancelled and no resolver is called from there on. The request comes to an end. What is
reported of a cancelled request is the cancellation alone; of any other there are data, and
no cancellation is reported. -/
theorem cancellation_is_final {preparation : Preparation σ}
    (prepared : schema.prepare configuration document request context = .ok preparation) :
    (∀ work session,
      schema.Underway configuration document request context state (work, session) →
      (session.shared.cancelled = true →
        ∀ after later, Work.Reaches (work, session) (after, later) →
          later.shared.cancelled = true ∧
          ∃ events, later.events = session.events ++ events ∧
            ∀ path, Event.called path ∉ events) ∧
      (∃ outcome final, Work.Reaches (work, session) (.done outcome, final)) ∧
      ∀ outcome final, Work.Reaches (work, session) (.done outcome, final) →
        schema.MayReport configuration document request context state
          ⟨.ofOutcome outcome final, final⟩) ∧
    schema.MayReport configuration document request context state
      (schema.executeDocument configuration document request context state) ∧
    ∀ report, schema.MayReport configuration document request context state report →
      ∃ outcome,
        schema.Underway configuration document request context state
          (.done outcome, report.session) ∧
        (report.session.shared.cancelled = true →
          report.response = .ofErrors [⟨"Request was cancelled", [], []⟩]) ∧
        (report.session.shared.cancelled = false →
          report.response.data = some outcome.toData ∧
          ⟨"Request was cancelled", [], []⟩ ∉ report.response.errors.getD []) := by
  refine ⟨?_, mayReport_executeDocument _ _ _ _ _ _, ?_⟩
  · intro work session underway
    refine ⟨?_, ⟨_, _, Work.run_reaches work session⟩, fun _ _ => underway.mayReport⟩
    intro cancelled after later reaches
    rcases underway.continues reaches with ⟨events, continues⟩
    refine ⟨continues.stays cancelled, events, continues.grows, ?_⟩
    intro path member
    cases continues.quiet cancelled _ member
  · intro report reports
    rcases reports.underway prepared with ⟨outcome, underway, response⟩
    rw [response]
    refine ⟨outcome, underway, Response.ofOutcome_cancelled, fun live => ⟨?_, ?_⟩⟩
    · rw [Response.ofOutcome, live]
      rfl
    · exact Response.not_mem_errors_ofOutcome live

end Schema

namespace Visit

def callOff (call : FieldCall) : Resolution Unit :=
  match call.field with
  | "host" => .pause 20 (.answer (answer call))
  | "guest" => .cancel (.answer (answer call))
  | _ => .answer (answer call)

def calledOff : Preparation Unit where
  execution := ⟨schema callOff, [], [], [], none⟩
  operation := operation
  root := query callOff
  fields := preparation.fields

def halfway : Progress Unit :=
  (calledOff.workAs .group .null).advance .fresh ⟨⟨(), false⟩, []⟩ .start

theorem nobody_is_called_after_halfway :
    (schema callOff).prepare .standard document request [] = .ok calledOff ∧
      halfway.session.shared.cancelled = true ∧
      ∃ outcome final, Work.Reaches (halfway.work, halfway.session) (.done outcome, final) ∧
        (∃ events, final.events = halfway.session.events ++ events ∧
          ∀ path, Event.called path ∉ events) ∧
        (schema callOff).MayReport .standard document request [] ()
          ⟨.ofErrors [⟨"Request was cancelled", [], []⟩], final⟩ := by
  have prepared : (schema callOff).prepare .standard document request [] = .ok calledOff := rfl
  have cancelled : halfway.session.shared.cancelled = true := by cbv
  have underway : (schema callOff).Underway .standard document request [] ()
      (halfway.work, halfway.session) :=
    .intro prepared (.inl rfl) (Work.advances _ _ _ _).reaches
  rcases (Schema.cancellation_is_final prepared).1 _ _ underway with
    ⟨onward, ⟨outcome, final, reaches⟩, reported⟩
  rcases onward cancelled _ _ reaches with ⟨stays, quiet⟩
  have reports := reported _ _ reaches
  rcases (Schema.cancellation_is_final prepared).2.2 _ reports with ⟨_, _, alone, _⟩
  have response : Response.ofOutcome outcome final =
      .ofErrors [⟨"Request was cancelled", [], []⟩] := alone stays
  rw [response] at reports
  exact ⟨prepared, cancelled, outcome, final, reaches, quiet, reports⟩

end Visit

end GraphQuery
