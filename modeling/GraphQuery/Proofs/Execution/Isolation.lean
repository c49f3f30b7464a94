import GraphQuery.Proofs.Execution.Placeholders
import GraphQuery.Proofs.Execution.ScheduleIndependence

/-! What a resolver answers at a place of a response shows there and below. It can reach up
to the nearest place that accepts null, and nothing beside that place. -/

namespace GraphQuery

namespace Trace

/-- The data of two traces are the same but for the nearest nullable place of a path, which
is the same in both. They do not differ at all if the path leads to no place. -/
structure SameDataBut (place nearest : Path) (first second : Trace) : Prop where
  isNearest : first.IsNearestNullable place nearest
  isNearestToo : second.IsNearestNullable place nearest
  replaced : ∀ placeholder, first.outcome.toData.replaceAt nearest placeholder =
    second.outcome.toData.replaceAt nearest placeholder
  beside : ∀ beside, ¬ nearest <+: beside → ¬ beside <+: nearest →
    first.outcome.toData.at? beside = second.outcome.toData.at? beside
  absent : first.at? none place = none → first.outcome.toData = second.outcome.toData

theorem exists_nearest? (trace : Trace) (path : Path) :
    ∃ nearest, nearest? none trace path = some nearest := by
  rcases (nearest_nearest? none trace path).longest [] List.nil_prefix (accepts_nil.mpr rfl) with
    ⟨nearest, found, _⟩
  exact ⟨nearest, found⟩

theorem AlikeBut.sameData {place : Path} {first second : Trace}
    (alike : AlikeBut place first second) : ∃ nearest, SameDataBut place nearest first second := by
  rcases exists_nearest? first place with ⟨nearest, found⟩
  have replaced : ∀ placeholder, first.outcome.toData.replaceAt nearest placeholder =
      second.outcome.toData.replaceAt nearest placeholder := by
    intro placeholder
    have same := alike.replaceAt_data? found placeholder
    simpa only [data?, json?_settleAt_none, Option.map_some, Option.some.injEq] using same
  refine ⟨nearest, isNearestNullable_of_nearest? found,
    isNearestNullable_of_nearest? ((alike.nearest?_eq none).symm.trans found), replaced, ?_, ?_⟩
  · intro beside notBelow notAbove
    calc first.outcome.toData.at? beside
        = (first.outcome.toData.replaceAt nearest .null).at? beside :=
          (Json.at?_replaceAt_beside notBelow notAbove).symm
      _ = (second.outcome.toData.replaceAt nearest .null).at? beside := by rw [replaced]
      _ = second.outcome.toData.at? beside := Json.at?_replaceAt_beside notBelow notAbove
  · intro absent
    rw [alike.eq_of_absent none absent]

end Trace

def Response.errorsBeside (place : Path) (response : Response) : List ResponseError :=
  (response.errors.getD []).filter fun error => ¬ place <+: error.path

theorem Response.errorsBeside_perm (place : Path) {response : Response} {trace : Trace}
    (errors : (response.errors.getD []).Perm (trace.faults.map FieldFault.toError)) :
    (response.errorsBeside place).Perm
      ((trace.faults.filter fun fault => ¬ place <+: fault.path).map FieldFault.toError) := by
  have beside := errors.filter fun error => ¬ place <+: error.path
  rwa [List.filter_map] at beside

namespace Schema

variable {ρ σ τ : Type} {schema : Schema ρ} {family otherFamily : ρ → FieldCall →
    Except ResolverFault Json} {configuration : Configuration} {document : Document}
  {request : Request} {context : Context} {place : Path}

theorem alikeBut_of_completes {plan : Plan ρ}
    (agree : ∀ resolver call, ¬ place <+: call.path →
      family resolver call = otherFamily resolver call)
    {traces others : List (FieldPlace × Trace)} (distinct : (Trace.object traces).Distinct)
    (completes : (plan.setting schema document context family).CompletesFields plan.root
      request.rootValue [] plan.fields traces)
    (completesToo : (plan.setting schema document context otherFamily).CompletesFields plan.root
      request.rootValue [] plan.fields others) :
    Trace.AlikeBut place (.object traces) (.object others) := by
  have seen : ∀ field call first second, Trace.leadsTo place call.path = false →
      (plan.setting schema document context family).Answers field call first →
      (plan.setting schema document context otherFamily).Answers field call second →
      first = second := by
    intro field call first second elsewhere one two
    rw [one, two]
    unfold FieldDefinition.answer
    cases field.resolver with
    | some resolver => exact agree resolver call (of_decide_eq_false elsewhere)
    | none => rfl
  have same : (Trace.object traces).masked (Trace.leadsTo ([] ++ place)) [] =
      (Trace.object others).masked (Trace.leadsTo ([] ++ place)) [] :=
    Trace.masked_object_congr (completes.masked_eq seen completesToo)
  exact Trace.alikeBut_of_masked distinct same

/-- Let two families of answers differ at one place and below it, as values, as failures or
as answers that come too late. Then the errors found elsewhere are the same, and the data are
the same but for the nearest nullable place. -/
theorem MayReport.failures_are_isolated {resolvers : ρ → Resolver σ} {others : ρ → Resolver τ}
    {other : Configuration} (follow : FollowWithin configuration.fieldTimeout resolvers family)
    (alsoFollow : FollowWithin other.fieldTimeout others otherFamily)
    (agree : ∀ resolver call, ¬ place <+: call.path →
      family resolver call = otherFamily resolver call)
    (depth : configuration.maxDepth = other.maxDepth) {state : σ} {otherState : τ}
    {report : Report σ} {otherReport : Report τ}
    (reports : (schema.map resolvers).MayReport configuration document request context state
      report)
    (otherReports : (schema.map others).MayReport other document request context otherState
      otherReport)
    (live : report.session.shared.cancelled = false)
    (alsoLive : otherReport.session.shared.cancelled = false) :
    (report.response.errorsBeside place).Perm (otherReport.response.errorsBeside place) ∧
      (report.response.data = none ∧ otherReport.response.data = none ∨
        ∃ plan traces otherTraces nearest,
          schema.plan configuration document request = .ok plan ∧
          (plan.setting schema document context family).CompletesFields plan.root
            request.rootValue [] plan.fields traces ∧
          (plan.setting schema document context otherFamily).CompletesFields plan.root
            request.rootValue [] plan.fields otherTraces ∧
          report.response.data = some (Trace.object traces).outcome.toData ∧
          otherReport.response.data = some (Trace.object otherTraces).outcome.toData ∧
          Trace.SameDataBut place nearest (.object traces) (.object otherTraces)) := by
  have first := determines_of_live follow reports live
  have second := (determines_of_live alsoFollow otherReports alsoLive).reconfigure depth.symm
  rcases first.both second with ⟨same, missing⟩ |
    ⟨plan, traces, otherTraces, planned, completes, completesToo, data, otherData, errors,
      otherErrors⟩
  · rw [← same]
    exact ⟨.refl _, .inl ⟨missing, missing⟩⟩
  · have collected := (answers_of_plan planned).fields
    have located : (Trace.object traces).Located [] :=
      Setting.located_fields collected completes completes.located
    have locatedToo : (Trace.object otherTraces).Located [] :=
      Setting.located_fields collected completesToo completesToo.located
    have alike := alikeBut_of_completes agree located.distinct completes completesToo
    have faults := alike.faults_beside (List.nil_append place).symm located locatedToo
    have beside := Response.errorsBeside_perm place errors
    rw [faults] at beside
    rcases alike.sameData with ⟨nearest, sameData⟩
    exact ⟨beside.trans (Response.errorsBeside_perm place otherErrors).symm,
      .inr ⟨plan, traces, otherTraces, nearest, planned, completes, completesToo, data, otherData,
        sameData⟩⟩

end Schema

namespace Visit

def guestName : Path := [.key "guest", .key "name"]

def introduced (name : Except ResolverFault Json) (call : FieldCall) : Except ResolverFault Json :=
  if call.path = guestName then name else answer call

def thoughtful (call : FieldCall) : Resolution Unit :=
  .pause (if call.path = guestName then 50 else 5)
    (.answer (introduced (.ok (.string "Bob")) call))

def impatient : Configuration := { Configuration.standard with fieldTimeout := some 10 }

theorem introduced_elsewhere {one other : Except ResolverFault Json} {call : FieldCall}
    (elsewhere : ¬ guestName <+: call.path) : introduced one call = introduced other call := by
  have different : call.path ≠ guestName := by
    intro same
    rw [same] at elsewhere
    exact elsewhere List.prefix_rfl
  rw [introduced, introduced, if_neg different, if_neg different]

theorem follow_introduced (name : Except ResolverFault Json) :
    Follow (fun _ : Unit => (.pure (introduced name) : Resolver Unit)) fun _ => introduced name :=
  fun _ _ => .answer

theorem follow_thoughtful : FollowWithin impatient.fieldTimeout (fun _ : Unit => thoughtful)
    fun _ => introduced (.error (.timeout 10)) := by
  intro resolver call result answers
  have waits : (thoughtful call).limited impatient.fieldTimeout =
      .pause (if call.path = guestName then 10 else 5)
        (.answer (introduced (.error (.timeout 10)) call)) := by
    unfold thoughtful introduced
    by_cases here : call.path = guestName
    · rw [if_pos here, if_pos here, if_pos here, if_pos here]
      rfl
    · rw [if_neg here, if_neg here, if_neg here, if_neg here]
      rfl
  rw [waits] at answers
  cases answers with
  | pause answers =>
      cases answers
      rfl

def promptReport : Report Unit :=
  ((schema ()).map fun _ => .pure (introduced (.ok (.string "Bob")))).executeDocument .standard
    document request [] ()

def slowReport : Report Unit :=
  ((schema ()).map fun _ => thoughtful).executeDocument impatient document request [] ()

def slowPreparation : Preparation Unit where
  execution := ⟨schema thoughtful, [], [], [], impatient.fieldTimeout⟩
  operation := operation
  root := query thoughtful
  fields := preparation.fields

theorem live_slowReport : slowReport.session.shared.cancelled = false := by
  have session : slowReport.session =
      ((slowPreparation.workAs .group .null).run ⟨⟨(), false⟩, []⟩).2 := rfl
  rw [session]
  cbv

/-- The host is not affected by whether the guest gives a name in time. -/
theorem host_is_unaffected :
    (∀ (_ : Unit) call, ¬ guestName <+: call.path →
        introduced (.ok (.string "Bob")) call = introduced (.error (.timeout 10)) call) ∧
      promptReport.session.shared.cancelled = false ∧
      slowReport.session.shared.cancelled = false ∧
      (promptReport.response.errorsBeside guestName).Perm
        (slowReport.response.errorsBeside guestName) ∧
      (promptReport.response.data = none ∧ slowReport.response.data = none ∨
        ∃ plan traces otherTraces nearest,
          (schema ()).plan .standard document request = .ok plan ∧
          (plan.setting (schema ()) document [] fun _ =>
              introduced (.ok (.string "Bob"))).CompletesFields plan.root
            request.rootValue [] plan.fields traces ∧
          (plan.setting (schema ()) document [] fun _ =>
              introduced (.error (.timeout 10))).CompletesFields plan.root
            request.rootValue [] plan.fields otherTraces ∧
          promptReport.response.data = some (Trace.object traces).outcome.toData ∧
          slowReport.response.data = some (Trace.object otherTraces).outcome.toData ∧
          Trace.SameDataBut guestName nearest (.object traces) (.object otherTraces)) := by
  have reports := Schema.mayReport_executeDocument
    ((schema ()).map fun _ => .pure (introduced (.ok (.string "Bob")))) .standard document request
    [] ()
  have live : promptReport.session.shared.cancelled = false :=
    Schema.live_of_mayReport (follow_introduced _) rfl rfl reports
  have depth : Configuration.standard.maxDepth = impatient.maxDepth := rfl
  refine ⟨fun _ _ => introduced_elsewhere, live, live_slowReport, ?_⟩
  exact Schema.MayReport.failures_are_isolated (follow_introduced _).within follow_thoughtful
    (fun _ _ => introduced_elsewhere) depth reports
    (Schema.mayReport_executeDocument _ _ _ _ _ _) live live_slowReport

end Visit

end GraphQuery
