import Mathlib
import GraphQuery.Proofs.Execution.Completing
import GraphQuery.Proofs.Execution.Plan
import GraphQuery.Proofs.Schema.Built

/-! The reports of a request, whatever the order in which its parts go on, and what
their data and errors are. -/

namespace GraphQuery

variable {σ : Type}

def Preparation.workAs (preparation : Preparation σ)
    (arrange : List (Work σ) → (List Outcome → Work σ) → Work σ) (rootValue : Json) : Work σ :=
  let depth := preparation.operation.selectionSet.depth preparation.execution.fragments
  preparation.execution.fields (preparation.execution.object depth) arrange preparation.fields
    preparation.root rootValue []

theorem Preparation.arrange_cases (preparation : Preparation σ)
    (sequentialMutations : Bool) :
    preparation.arrange sequentialMutations = .group ∨
      preparation.arrange sequentialMutations = .inOrder := by
  unfold Preparation.arrange
  split
  · exact .inr rfl
  · exact .inl rfl

/-- The reports that a request for a document can have. The parts of the work go on in
any order, and every wait may take any time. -/
inductive Schema.MayReport (schema : Schema (Resolver σ)) (configuration : Configuration)
    (document : Document) (request : Request) (context : Context) (state : σ) :
    Report σ → Prop where
  | empty (nothing : document.operations.isEmpty = true) :
      MayReport schema configuration document request context state
        ⟨.empty, ⟨⟨state, request.cancelled⟩, []⟩⟩
  | refused {fault : OperationFault} (something : document.operations.isEmpty = false)
      (refused : schema.prepare configuration document request context = .error fault) :
      MayReport schema configuration document request context state
        ⟨.ofErrors [fault.toError], ⟨⟨state, request.cancelled⟩, []⟩⟩
  | carriedOut {preparation : Preparation σ}
      {arrange : List (Work σ) → (List Outcome → Work σ) → Work σ} {outcome : Outcome}
      {final : Session σ} (something : document.operations.isEmpty = false)
      (prepared : schema.prepare configuration document request context = .ok preparation)
      (arranged : arrange = .group ∨ arrange = .inOrder)
      (reaches : Work.Reaches
        (preparation.workAs arrange request.rootValue, ⟨⟨state, request.cancelled⟩, []⟩)
        (.done outcome, final)) :
      MayReport schema configuration document request context state
        ⟨.ofOutcome outcome final, final⟩

theorem Response.errors_withErrors (response : Response) (errors : List ResponseError) :
    (response.withErrors errors).errors.getD [] = errors := by
  cases errors <;> rfl

namespace Schema

variable {schema : Schema (Resolver σ)} {configuration : Configuration} {document : Document}
  {request : Request} {context : Context} {state : σ} {report : Report σ}

theorem mayReport_executeDocument (schema : Schema (Resolver σ)) (configuration : Configuration)
    (document : Document) (request : Request) (context : Context) (state : σ) :
    schema.MayReport configuration document request context state
      (schema.executeDocument configuration document request context state) := by
  unfold executeDocument
  cases empty : document.operations.isEmpty with
  | true => exact .empty empty
  | false =>
      cases prepared : schema.prepare configuration document request context with
      | error fault => exact .refused empty prepared
      | ok preparation =>
          exact .carriedOut empty prepared (preparation.arrange_cases _) (Work.run_reaches _ _)

theorem allWithin_prepared {preparation : Preparation σ}
    (prepared : schema.prepare configuration document request context = .ok preparation)
    {merged : MergedField} (member : merged ∈ preparation.fields) :
    ∃ fewer,
      preparation.operation.selectionSet.depth preparation.execution.fragments = fewer + 1 ∧
      SelectionSet.AllWithin preparation.execution.fragments fewer merged.selectionSets := by
  rcases exists_plan_of_prepare prepared with ⟨plan, planned, rfl⟩
  have answers := answers_of_plan planned
  rcases Document.exists_order_of_checkSpreads answers.spreads with ⟨names, order⟩
  have nested : SelectionSet.AllWithin document.fragments
      (plan.operation.selectionSet.depth document.fragments) [plan.operation.selectionSet] := by
    intro set only
    rw [List.mem_singleton.mp only]
    exact SelectionSet.nestedWithin_depth
      (FragmentTable.keyed_ofDefinitions document.fragmentDefinitions) order.ordered
      (order.operations _ (Document.mem_operations_of_selectOperation answers.operation))
  exact Expansion.allWithin_selectionSets answers.fields nested member

theorem keeps_prepared {preparation : Preparation σ}
    (prepared : schema.prepare configuration document request context = .ok preparation)
    {merged : MergedField} (member : merged ∈ preparation.fields) :
    preparation.execution.Keeps merged (preparation.execution.object
      (preparation.operation.selectionSet.depth preparation.execution.fragments) merged) := by
  rcases allWithin_prepared prepared member with ⟨fewer, levels, below⟩
  exact Execution.keeps_object (Nat.lt_of_succ_le (Nat.le_of_eq levels.symm)) below

theorem completes_prepared {preparation : Preparation σ}
    {arrange : List (Work σ) → (List Outcome → Work σ) → Work σ} {events : List Event}
    {outcome : Outcome}
    (prepared : schema.prepare configuration document request context = .ok preparation)
    (arranged : arrange = .group ∨ arrange = .inOrder)
    (ends : Work.Ends true (preparation.workAs arrange request.rootValue) events outcome) :
    ∃ traces, preparation.execution.setting.CompletesFields preparation.root request.rootValue []
        preparation.fields traces ∧ (Trace.object traces).Tells events outcome := by
  have arranges : Execution.Arranges arrange := by
    rcases arranged with rfl | rfl
    · exact fun _ _ _ _ ends => ends
    · exact fun _ _ _ _ ends => ends.of_inOrder
  exact Execution.completes_arranged arranges (fun _ => keeps_prepared prepared) ends

/-- Data are the outcome of a trace of all the fields, whose faults are the errors. -/
theorem MayReport.exists_trace
    (reports : schema.MayReport configuration document request context state report) {data : Json}
    (present : report.response.data = some data) :
    ∃ preparation traces,
      schema.prepare configuration document request context = .ok preparation ∧
      preparation.execution.setting.CompletesFields preparation.root request.rootValue []
        preparation.fields traces ∧
      data = (Trace.object traces).outcome.toData ∧
      (report.response.errors.getD []).Perm
        ((Trace.object traces).faults.map FieldFault.toError) := by
  cases reports with
  | empty => cases present
  | refused => cases present
  | @carriedOut preparation arrange outcome final something prepared arranged reaches =>
      simp only [Response.ofOutcome] at present ⊢
      cases cancelled : final.shared.cancelled with
      | true => simp [cancelled, Response.ofErrors] at present
      | false =>
          simp only [cancelled, Bool.false_eq_true, if_false] at present ⊢
          rcases reaches.ends with ⟨events, ends, same⟩
          rw [cancelled] at ends
          rcases completes_prepared prepared arranged ends with ⟨traces, completes, tells⟩
          refine ⟨preparation, traces, prepared, completes, ?_, ?_⟩
          · cases present
            rw [tells.outcome]
          · have faults : final.faults.Perm (Trace.object traces).faults := by
              rw [Session.faults_eq_filterMap, ← tells.faults]
              exact same.filterMap _
            rw [Response.errors_withErrors, Session.errors_reporter]
            exact faults.map _

end Schema

/-! ## A small schema -/

namespace Visit

variable {ρ : Type}

def person (resolver : ρ) : ObjectDefinition ρ where
  name := "Person"
  description := none
  fields := [("name", ⟨"name", none, .nonNull (.named "String"), [], some resolver⟩)]
  implements := []

def query (resolver : ρ) : ObjectDefinition ρ where
  name := "Query"
  description := none
  fields :=
    [("host", ⟨"host", none, .named "Person", [], some resolver⟩),
      ("guest", ⟨"guest", none, .named "Person", [], some resolver⟩)]
  implements := []

def builder (resolver : ρ) : SchemaBuilder ρ :=
  ((SchemaBuilder.initial.add (.object (query resolver))).add
    (.object (person resolver))).withRoot .query "Query"

def schema (resolver : ρ) : Schema ρ where
  types := (builder resolver).types
  query := "Query"
  mutation := none
  subscription := none

theorem schema_isBuilt (resolver : ρ) : (schema resolver).IsBuilt :=
  ⟨builder resolver, .withRoot .query "Query" (.add _ (.add _ .initial)), rfl⟩

def head (name : String) (start stop : Nat) : FieldHead where
  label := none
  name := ⟨name, ⟨start, stop⟩, ⟨1, start + 1⟩⟩
  arguments := []
  directives := []
  span := ⟨start, stop⟩
  location := ⟨1, start + 1⟩

def operation : OperationDefinition where
  kind := .query
  name := none
  variableDefinitions := []
  directives := []
  selectionSet :=
    ⟨[.branch (head "host" 2 6) [.leaf (head "name" 9 13)] ⟨7, 15⟩,
      .branch (head "guest" 16 21) [.leaf (head "name" 24 28)] ⟨22, 30⟩], ⟨0, 32⟩⟩
  span := ⟨0, 32⟩
  location := ⟨1, 1⟩

def document : Document := ⟨[.operation operation], ⟨0, 32⟩⟩

def request : Request := .ofQuery "{ host { name } guest { name } }"

def answer (call : FieldCall) : Except ResolverFault Json :=
  match call.field with
  | "host" => .ok (.object [("name", .string "Ann")])
  | "guest" => .ok (.object [])
  | _ =>
      match call.parent.entry? "name" with
      | some name => .ok name
      | none => .error (.custom "No name was given")

def preparation : Preparation Unit where
  execution := ⟨schema (.pure answer), [], [], [], none⟩
  operation := operation
  root := query (.pure answer)
  fields :=
    [⟨"host", ⟨head "host" 2 6, some ⟨[.leaf (head "name" 9 13)], ⟨7, 15⟩⟩⟩, []⟩,
      ⟨"guest", ⟨head "guest" 16 21, some ⟨[.leaf (head "name" 24 28)], ⟨22, 30⟩⟩⟩, []⟩]

def nameless : FieldFault where
  cause := .resolver (.custom "No name was given")
  field := ⟨1, 25⟩
  path := [.key "guest", .key "name"]

def data : Json :=
  .object [("host", .object [("name", .string "Ann")]), ("guest", .null)]

def session : Session Unit where
  shared := ⟨(), false⟩
  journal :=
    [.failed nameless, .answered [.key "guest", .key "name"], .called [.key "guest", .key "name"],
      .answered [.key "guest"], .called [.key "guest"], .answered [.key "host", .key "name"],
      .called [.key "host", .key "name"], .answered [.key "host"], .called [.key "host"]]

def report : Report Unit := ⟨.ofOutcome (.value data) session, session⟩

theorem mayReport :
    (schema (.pure answer)).MayReport .standard document request [] () report := by
  have ran : (preparation.workAs .group .null).run ⟨⟨(), false⟩, []⟩ = (.value data, session) := by
    cbv
  have reaches := Work.run_reaches (preparation.workAs .group .null) ⟨⟨(), false⟩, []⟩
  rw [ran] at reaches
  exact .carriedOut rfl rfl (.inl rfl) reaches

end Visit

end GraphQuery
