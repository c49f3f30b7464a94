import GraphQuery.Proofs.Execution.Calm
import GraphQuery.Proofs.Execution.Determinism

/-! The response does not depend on the schedule, if the answers of the resolvers depend
on their calls alone and nothing is given up or cancelled. -/

namespace GraphQuery

variable {ρ ρ' σ : Type}

/-! ## Plans of exchanged schemas -/

def Plan.map (exchange : ρ → ρ') (plan : Plan ρ) : Plan ρ' where
  operation := plan.operation
  root := plan.root.map exchange
  bindings := plan.bindings
  fields := plan.fields

theorem Schema.plan_map (exchange : ρ → ρ') (schema : Schema ρ) (configuration : Configuration)
    (document : Document) (request : Request) :
    (schema.map exchange).plan configuration document request =
      (schema.plan configuration document request).map (Plan.map exchange) := by
  change _ = Plan.map exchange <$> schema.plan configuration document request
  simp only [plan, map_bind, map_pure, root?_map, coerceVariables_map]
  congr 1
  funext _
  congr 1
  funext operation
  cases schema.root? operation.kind with
  | none => rfl
  | some root =>
      have merged : ∀ bindings sets,
          (⟨schema.map exchange, root.map exchange, document.fragments, bindings⟩ :
            Expansion ρ').merge sets =
          (⟨schema, root, document.fragments, bindings⟩ : Expansion ρ).merge sets :=
        fun bindings sets => Expansion.merge_map exchange ⟨schema, root, _, bindings⟩ sets
      simp only [Option.map_some, Option.elim_some, Except.ok_bind, merged]
      rfl

/-! ## Families of answers -/

/-- Resolvers may wait and may change the state, but they answer as a family does. -/
def Follow (resolvers : ρ → Resolver σ) (family : ρ → FieldCall → Except ResolverFault Json) :
    Prop :=
  ∀ resolver call, (resolvers resolver call).AlwaysAnswers (family resolver call)

/-- A resolution that is given up once it has waited for too long, if there is a limit. -/
def Resolution.limited (limit : Option Nat) (resolution : Resolution σ) : Resolution σ :=
  match limit with
  | some limit => resolution.within limit
  | none => resolution

theorem Resolution.limited_answer (limit : Option Nat) (result : Except ResolverFault Json) :
    (answer result : Resolution σ).limited limit = .answer result := by
  cases limit <;> rfl

/-- Whatever comes of a call that is not cancelled, in time or by the limit, is what the
family says. -/
def FollowWithin (limit : Option Nat) (resolvers : ρ → Resolver σ)
    (family : ρ → FieldCall → Except ResolverFault Json) : Prop :=
  ∀ resolver call result, ((resolvers resolver call).limited limit).MayAnswer result →
    result = family resolver call

theorem Follow.within {resolvers : ρ → Resolver σ}
    {family : ρ → FieldCall → Except ResolverFault Json} (follow : Follow resolvers family) :
    FollowWithin none resolvers family :=
  fun resolver call _ answers => (follow resolver call).eq_of_mayAnswer answers

/-- The answer to a call, which comes from the parent if the field has no resolver. -/
def FieldDefinition.answer (family : ρ → FieldCall → Except ResolverFault Json)
    (field : FieldDefinition ρ) (call : FieldCall) : Except ResolverFault Json :=
  match field.resolver with
  | some resolver => family resolver call
  | none => .ok ((call.parent.entry? call.field).getD .null)

def Plan.setting (plan : Plan ρ) (schema : Schema ρ) (document : Document) (context : Context)
    (family : ρ → FieldCall → Except ResolverFault Json) : Setting ρ where
  schema := schema
  fragments := document.fragments
  bindings := plan.bindings
  context := context
  Answers field call result := result = field.answer family call

theorem Plan.determined_setting {plan : Plan ρ} {schema : Schema ρ} {document : Document}
    {context : Context} {family : ρ → FieldCall → Except ResolverFault Json} :
    (plan.setting schema document context family).Determined :=
  fun _ _ _ _ first second => first.trans second.symm

section

variable {resolvers : ρ → Resolver σ} {family : ρ → FieldCall → Except ResolverFault Json}
  (follow : Follow resolvers family) {execution : Execution σ} (untimed : execution.timeout = none)

include follow untimed

theorem Execution.alwaysAnswers_map (field : FieldDefinition ρ) (call : FieldCall) :
    (execution.resolution (field.map resolvers) call).AlwaysAnswers (field.answer family call) := by
  unfold Execution.resolution FieldDefinition.answer
  rw [untimed]
  cases found : field.resolver with
  | none =>
      simp only [FieldDefinition.map, found]
      exact .answer
  | some resolver =>
      simp only [FieldDefinition.map, found]
      exact follow resolver call

theorem Execution.settled_map {schema : Schema ρ} (same : execution.schema = schema.map resolvers) :
    execution.Settled := by
  rintro object name field call ⟨typeName, found⟩ defined
  rw [same, Schema.object?_map] at found
  rcases Option.map_eq_some_iff.mp found with ⟨original, _, rfl⟩
  rcases Option.map_eq_some_iff.mp ((Entries.get?_map _ _ _).symm.trans defined) with
    ⟨declared, _, rfl⟩
  exact ⟨_, alwaysAnswers_map follow untimed declared call⟩

end

theorem Execution.eq_answer_of_mayAnswer {resolvers : ρ → Resolver σ}
    {family : ρ → FieldCall → Except ResolverFault Json} {execution : Execution σ}
    (follow : FollowWithin execution.timeout resolvers family) {field : FieldDefinition ρ}
    {call : FieldCall} {result : Except ResolverFault Json}
    (answers : (execution.resolution (field.map resolvers) call).MayAnswer result) :
    result = field.answer family call := by
  change (((field.map resolvers).resolver.getD .ofParent call).limited
    execution.timeout).MayAnswer result at answers
  unfold FieldDefinition.answer
  cases found : field.resolver with
  | some resolver =>
      simp only [FieldDefinition.map, found, Option.map_some, Option.getD_some] at answers
      exact follow resolver call result answers
  | none =>
      simp only [FieldDefinition.map, found, Option.map_none, Option.getD_none,
        Resolver.ofParent, Resolver.pure, Resolution.limited_answer] at answers
      cases answers
      rfl

/-! ## Reports -/

/-- What a report must be if the answers come from a family. -/
inductive Schema.Determines (schema : Schema ρ) (configuration : Configuration)
    (document : Document) (request : Request) (context : Context)
    (family : ρ → FieldCall → Except ResolverFault Json) : Response → Prop where
  | empty (nothing : document.operations.isEmpty = true) :
      Determines schema configuration document request context family .empty
  | refused {fault : OperationFault} (something : document.operations.isEmpty = false)
      (refused : schema.plan configuration document request = .error fault) :
      Determines schema configuration document request context family (.ofErrors [fault.toError])
  | carriedOut {plan : Plan ρ} {traces : List (FieldPlace × Trace)} {response : Response}
      (something : document.operations.isEmpty = false)
      (planned : schema.plan configuration document request = .ok plan)
      (completes : (plan.setting schema document context family).CompletesFields plan.root
        request.rootValue [] plan.fields traces)
      (data : response.data = some (Trace.object traces).outcome.toData)
      (errors : (response.errors.getD []).Perm
        ((Trace.object traces).faults.map FieldFault.toError)) :
      Determines schema configuration document request context family response

namespace Schema

variable {schema : Schema ρ} {resolvers : ρ → Resolver σ}
  {family : ρ → FieldCall → Except ResolverFault Json} {configuration : Configuration}
  {document : Document} {request : Request} {context : Context} {plan : Plan ρ}

theorem prepare_map (planned : schema.plan configuration document request = .ok plan) :
    (schema.map resolvers).prepare configuration document request context =
      .ok ((plan.map resolvers).prepared (schema.map resolvers) configuration document
        context) := by
  rw [prepare_eq_plan, plan_map, planned]
  rfl

/-- Once there is a plan, its fields are completed with the answers of the family. -/
theorem determines_of_reaches (follow : FollowWithin configuration.fieldTimeout resolvers family)
    (something : document.operations.isEmpty = false)
    (planned : schema.plan configuration document request = .ok plan)
    {arrange : List (Work σ) → (List Outcome → Work σ) → Work σ}
    (arranged : arrange = .group ∨ arrange = .inOrder) {state : σ} {outcome : Outcome}
    {final : Session σ}
    (reaches : Work.Reaches
      (((plan.map resolvers).prepared (schema.map resolvers) configuration document
        context).workAs arrange request.rootValue, ⟨⟨state, request.cancelled⟩, []⟩)
      (.done outcome, final))
    (live : final.shared.cancelled = false) :
    schema.Determines configuration document request context family
      (Response.ofOutcome outcome final) := by
  have prepared : (schema.map resolvers).prepare configuration document request context = _ :=
    prepare_map planned
  have present : (Response.ofOutcome outcome final).data = some outcome.toData := by
    rw [Response.ofOutcome, live]
    rfl
  have reports := MayReport.carriedOut something prepared arranged reaches
  rcases reports.exists_trace present with ⟨preparation, traces, same, completes, data, errors⟩
  rw [prepared] at same
  cases same
  have exchanged : Setting.CompletesFields
      ((plan.setting schema document context family).exchanged resolvers _)
      (plan.root.map resolvers) request.rootValue [] plan.fields traces := completes
  refine .carriedOut something planned (exchanged.ofExchanged ?_ plan.root rfl)
    (present.trans (congrArg some data)) errors
  intro field call result answers
  exact Execution.eq_answer_of_mayAnswer follow answers

theorem determines_of_live (follow : FollowWithin configuration.fieldTimeout resolvers family)
    {state : σ} {report : Report σ}
    (reports : (schema.map resolvers).MayReport configuration document request context state
      report)
    (live : report.session.shared.cancelled = false) :
    schema.Determines configuration document request context family report.response := by
  cases planned : schema.plan configuration document request with
  | error fault =>
      have refused : (schema.map resolvers).prepare configuration document request context =
          .error fault := by
        rw [prepare_eq_plan, plan_map, planned]
        rfl
      cases reports with
      | empty nothing => exact .empty nothing
      | refused something same =>
          rw [refused] at same
          cases same
          exact .refused something planned
      | carriedOut _ prepared =>
          rw [refused] at prepared
          cases prepared
  | ok plan =>
      cases reports with
      | empty nothing => exact .empty nothing
      | refused _ refused =>
          rw [prepare_map planned] at refused
          cases refused
      | carriedOut something prepared arranged reaches =>
          rw [prepare_map planned] at prepared
          cases prepared
          exact determines_of_reaches follow something planned arranged reaches live

theorem live_of_mayReport (follow : Follow resolvers family)
    (untimed : configuration.fieldTimeout = none) (live : request.cancelled = false) {state : σ}
    {report : Report σ}
    (reports : (schema.map resolvers).MayReport configuration document request context state
      report) :
    report.session.shared.cancelled = false := by
  cases reports with
  | empty => exact live
  | refused => exact live
  | carriedOut _ prepared arranged reaches =>
      obtain ⟨plan, planned, rfl⟩ := exists_plan_of_prepare prepared
      exact Preparation.live_of_reaches (Execution.settled_map follow untimed rfl)
        (hasObject_of_root (answers_of_plan planned).root) arranged live reaches

theorem determines_of_mayReport (follow : Follow resolvers family)
    (untimed : configuration.fieldTimeout = none) (live : request.cancelled = false) {state : σ}
    {report : Report σ}
    (reports : (schema.map resolvers).MayReport configuration document request context state
      report) :
    schema.Determines configuration document request context family report.response := by
  have within : FollowWithin configuration.fieldTimeout resolvers family := by
    rw [untimed]
    exact follow.within
  exact determines_of_live within reports (live_of_mayReport follow untimed live reports)

theorem Determines.both {otherFamily : ρ → FieldCall → Except ResolverFault Json}
    {first second : Response}
    (determines : schema.Determines configuration document request context family first)
    (others : schema.Determines configuration document request context otherFamily second) :
    first = second ∧ first.data = none ∨ ∃ plan traces otherTraces,
      schema.plan configuration document request = .ok plan ∧
      (plan.setting schema document context family).CompletesFields plan.root request.rootValue
        [] plan.fields traces ∧
      (plan.setting schema document context otherFamily).CompletesFields plan.root
        request.rootValue [] plan.fields otherTraces ∧
      first.data = some (Trace.object traces).outcome.toData ∧
      second.data = some (Trace.object otherTraces).outcome.toData ∧
      (first.errors.getD []).Perm ((Trace.object traces).faults.map FieldFault.toError) ∧
      (second.errors.getD []).Perm
        ((Trace.object otherTraces).faults.map FieldFault.toError) := by
  cases determines with
  | empty nothing =>
      cases others with
      | empty => exact .inl ⟨rfl, rfl⟩
      | refused something =>
          rw [nothing] at something
          cases something
      | carriedOut something =>
          rw [nothing] at something
          cases something
  | refused something refused =>
      cases others with
      | empty nothing =>
          rw [something] at nothing
          cases nothing
      | refused _ same =>
          rw [refused] at same
          cases same
          exact .inl ⟨rfl, rfl⟩
      | carriedOut _ planned =>
          rw [refused] at planned
          cases planned
  | carriedOut something planned completes data errors =>
      cases others with
      | empty nothing =>
          rw [something] at nothing
          cases nothing
      | refused _ refused =>
          rw [planned] at refused
          cases refused
      | carriedOut _ same completesToo otherData otherErrors =>
          rw [planned] at same
          cases same
          exact .inr ⟨_, _, _, planned, completes, completesToo, data, otherData, errors,
            otherErrors⟩

theorem Determines.agree {first second : Response}
    (determines : schema.Determines configuration document request context family first)
    (others : schema.Determines configuration document request context family second) :
    first.data = second.data ∧ (first.errors.getD []).Perm (second.errors.getD []) := by
  rcases determines.both others with
    ⟨rfl, _⟩ | ⟨_, _, _, _, completes, completesToo, data, otherData, errors, otherErrors⟩
  · exact ⟨rfl, .refl _⟩
  · cases completes.unique Plan.determined_setting completesToo
    exact ⟨data.trans otherData.symm, errors.trans otherErrors.symm⟩

theorem Determines.reconfigure {other : Configuration} {response : Response}
    (depth : configuration.maxDepth = other.maxDepth)
    (determines : schema.Determines configuration document request context family response) :
    schema.Determines other document request context family response := by
  have same : schema.plan other document request = schema.plan configuration document request := by
    simp only [plan, depth]
  cases determines with
  | empty nothing => exact .empty nothing
  | refused something refused => exact .refused something (same.trans refused)
  | carriedOut something planned completes data errors =>
      exact .carriedOut something (same.trans planned) completes data errors

/-- Two ways to wait and two orders in which things happen lead to the same data, and to
the same errors in some order. The top-level fields may be side by side or in order. -/
theorem MayReport.schedule_independent {τ : Type} {others : ρ → Resolver τ}
    (follow : Follow resolvers family) (alsoFollow : Follow others family)
    {other : Configuration} (depth : configuration.maxDepth = other.maxDepth)
    (untimed : configuration.fieldTimeout = none) (alsoUntimed : other.fieldTimeout = none)
    (live : request.cancelled = false) {state : σ} {otherState : τ} {report : Report σ}
    {otherReport : Report τ}
    (reports : (schema.map resolvers).MayReport configuration document request context state
      report)
    (otherReports : (schema.map others).MayReport other document request context otherState
      otherReport) :
    report.response.data = otherReport.response.data ∧
      (report.response.errors.getD []).Perm (otherReport.response.errors.getD []) := by
  have first := determines_of_mayReport follow untimed live reports
  have second := determines_of_mayReport alsoFollow alsoUntimed live otherReports
  exact (first.reconfigure depth).agree second

end Schema

def Visit.patient (call : FieldCall) : Resolution Nat :=
  .pause (if call.field = "host" then 20 else 5) (.perform Nat.succ fun _ => .answer (answer call))

theorem Visit.follow_patient : Follow (fun _ : Unit => patient) fun _ => answer :=
  fun _ _ => .pause (.perform fun _ _ => .answer)

theorem Visit.agree_patient :
    Follow (σ := Unit) (fun _ : Unit => .pure answer) (fun _ => answer) ∧
      Follow (fun _ : Unit => patient) (fun _ => answer) ∧
      Configuration.standard.fieldTimeout = none ∧ request.cancelled = false ∧
      let quick : Report Unit := ((schema ()).map fun _ => .pure answer).executeDocument .standard
        document request [] ()
      let slow : Report Nat := ((schema ()).map fun _ => patient).executeDocument
        { Configuration.standard with sequentialMutations := false } document request [] 0
      quick.response.data = slow.response.data ∧
        (quick.response.errors.getD []).Perm (slow.response.errors.getD []) := by
  refine ⟨fun _ _ => .answer, follow_patient, rfl, rfl, ?_⟩
  exact Schema.MayReport.schedule_independent (fun _ _ => .answer) follow_patient rfl rfl rfl rfl
    (Schema.mayReport_executeDocument _ _ _ _ _ _) (Schema.mayReport_executeDocument _ _ _ _ _ _)

end GraphQuery
