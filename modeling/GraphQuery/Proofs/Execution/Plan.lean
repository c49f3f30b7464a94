import GraphQuery.Execution.Operation
import GraphQuery.Proofs.Success

/-! What a request comes to before anything is resolved. It does not depend on what the
resolvers are. -/

namespace GraphQuery

variable {σ : Type}

/-- What a request comes to before anything is resolved. -/
structure Plan (ρ : Type) where
  operation : OperationDefinition
  root : ObjectDefinition ρ
  bindings : Variables
  fields : FieldMap

section Plans

variable {ρ : Type} {schema : Schema ρ} {configuration : Configuration} {document : Document}
  {request : Request}

def Schema.plan (schema : Schema ρ) (configuration : Configuration) (document : Document)
    (request : Request) : Except OperationFault (Plan ρ) := do
  document.checkSpreads.mapError .selections
  let operation ← document.selectOperation request.operationName
  let root ← (schema.root? operation.kind).elim (.error (.unsupported operation.kind)) .ok
  let bindings ←
    (schema.coerceVariables operation.variableDefinitions request.variableValues).mapError .binding
  checkDepth configuration.maxDepth (operation.selectionSet.depth document.fragments)
  let expansion : Expansion ρ := ⟨schema, root, document.fragments, bindings⟩
  let fields ← (expansion.merge [operation.selectionSet]).mapError .selections
  return ⟨operation, root, bindings, fields⟩

structure Plan.Answers (plan : Plan ρ) (schema : Schema ρ) (document : Document)
    (request : Request) : Prop where
  spreads : document.checkSpreads = .ok ()
  operation : document.selectOperation request.operationName = .ok plan.operation
  root : schema.root? plan.operation.kind = some plan.root
  bindings : schema.coerceVariables plan.operation.variableDefinitions request.variableValues =
    .ok plan.bindings
  fields : (⟨schema, plan.root, document.fragments, plan.bindings⟩ : Expansion ρ).merge
    [plan.operation.selectionSet] = .ok plan.fields

theorem Document.mem_operations_of_selectOperation {document : Document} {name : Option String}
    {operation : OperationDefinition} (selected : document.selectOperation name = .ok operation) :
    operation ∈ document.operations := by
  simp only [selectOperation] at selected
  split at selected
  · split at selected
    · rename_i found
      cases selected
      exact List.mem_of_find?_eq_some found
    · cases selected
  · rename_i single
    cases selected
    simp [single]
  · cases selected

theorem Schema.answers_of_plan {plan : Plan ρ}
    (planned : schema.plan configuration document request = .ok plan) :
    plan.Answers schema document request := by
  rcases Except.exists_of_bind planned with ⟨⟨⟩, spreads, planned⟩
  rcases Except.exists_of_bind planned with ⟨operation, selected, planned⟩
  rcases Except.exists_of_bind planned with ⟨root, found, planned⟩
  rcases Except.exists_of_bind planned with ⟨bindings, coerced, planned⟩
  rcases Except.exists_of_bind planned with ⟨⟨⟩, depth, planned⟩
  rcases Except.exists_of_bind planned with ⟨fields, merged, planned⟩
  cases planned
  refine ⟨Except.eq_ok_of_mapError spreads, selected, ?_, Except.eq_ok_of_mapError coerced,
    Except.eq_ok_of_mapError merged⟩
  cases known : schema.root? operation.kind with
  | none => simp [known] at found
  | some object =>
      simp only [known, Option.elim_some, Except.ok.injEq] at found
      rw [found]

end Plans

def Plan.prepared (plan : Plan (Resolver σ)) (schema : Schema (Resolver σ))
    (configuration : Configuration) (document : Document) (context : Context) : Preparation σ where
  execution :=
    ⟨schema, document.fragments, plan.bindings, context, configuration.fieldTimeout⟩
  operation := plan.operation
  root := plan.root
  fields := plan.fields

section

variable {schema : Schema (Resolver σ)} {configuration : Configuration} {document : Document}
  {request : Request} {context : Context} {state : σ}

theorem Schema.prepare_eq_plan :
    schema.prepare configuration document request context =
      (schema.plan configuration document request).map fun plan =>
        plan.prepared schema configuration document context := by
  change _ = (fun plan : Plan (Resolver σ) =>
    plan.prepared schema configuration document context) <$>
      schema.plan configuration document request
  simp only [prepare, plan, map_bind, map_pure]
  rfl

theorem Schema.exists_plan_of_prepare {preparation : Preparation σ}
    (prepared : schema.prepare configuration document request context = .ok preparation) :
    ∃ plan, schema.plan configuration document request = .ok plan ∧
      preparation = plan.prepared schema configuration document context := by
  rw [prepare_eq_plan] at prepared
  cases planned : schema.plan configuration document request with
  | error fault => simp [planned, Except.map] at prepared
  | ok plan =>
      simp only [planned, Except.map, Except.ok.injEq] at prepared
      exact ⟨plan, rfl, prepared.symm⟩

theorem Schema.nonempty_of_prepare {preparation : Preparation σ}
    (prepared : schema.prepare configuration document request context = .ok preparation) :
    document.operations.isEmpty = false := by
  rcases exists_plan_of_prepare prepared with ⟨plan, planned, _⟩
  have member := Document.mem_operations_of_selectOperation (answers_of_plan planned).operation
  exact List.isEmpty_eq_false_iff.mpr (List.ne_nil_of_mem member)

theorem Schema.executeDocument_of_prepare {preparation : Preparation σ}
    (prepared : schema.prepare configuration document request context = .ok preparation) :
    let ended := (preparation.work configuration.sequentialMutations request.rootValue).run
      ⟨⟨state, request.cancelled⟩, []⟩
    schema.executeDocument configuration document request context state =
      ⟨.ofOutcome ended.1 ended.2, ended.2⟩ := by
  rw [executeDocument, nonempty_of_prepare prepared, prepared]
  rfl

end

end GraphQuery
