import GraphQuery.Execution.Field
import GraphQuery.Execution.Schedule
import GraphQuery.Request
import GraphQuery.Selection.Depth
import GraphQuery.Selection.Spreads

namespace GraphQuery

/-! Executing a request against a schema. -/

structure Configuration where
  maxDepth : Option Nat
  /-- How many milliseconds a resolver may take. -/
  fieldTimeout : Option Nat
  sequentialMutations : Bool

namespace Configuration

def standard : Configuration := ⟨none, none, true⟩

end Configuration

/-! ## Before anything is resolved -/

def Document.selectOperation (document : Document) (name : Option String) :
    Except OperationFault OperationDefinition :=
  match name, document.operations with
  | some name, _ =>
      match document.operation? name with
      | some operation => .ok operation
      | none => .error (.unknownOperation name)
  | none, [operation] => .ok operation
  | none, _ => .error .ambiguousOperation

structure Preparation (σ : Type) where
  execution : Execution σ
  operation : OperationDefinition
  root : ObjectDefinition (Resolver σ)
  fields : FieldMap

def checkDepth (limit : Option Nat) (depth : Nat) : Except OperationFault Unit :=
  match limit with
  | some limit => if limit < depth then .error (.tooDeep depth limit) else .ok ()
  | none => .ok ()

variable {σ : Type}

namespace Schema

/-- Prepare a request for a document that contains operations, or find the first
thing that keeps it from beginning. -/
def prepare (schema : Schema (Resolver σ)) (configuration : Configuration)
    (document : Document) (request : Request) (context : Context) :
    Except OperationFault (Preparation σ) := do
  document.checkSpreads.mapError .selections
  let operation ← document.selectOperation request.operationName
  let root ← (schema.root? operation.kind).elim (.error (.unsupported operation.kind)) .ok
  let bindings ←
    (schema.coerceVariables operation.variableDefinitions request.variableValues).mapError .binding
  checkDepth configuration.maxDepth (operation.selectionSet.depth document.fragments)
  let execution : Execution σ :=
    ⟨schema, document.fragments, bindings, context, configuration.fieldTimeout⟩
  let fields ←
    ((execution.expansion root).merge [operation.selectionSet]).mapError .selections
  return ⟨execution, operation, root, fields⟩

end Schema

namespace Preparation

/-- Fields are resolved side by side, except that those of a mutation may have to
wait for one another. -/
def arrange (preparation : Preparation σ) (sequentialMutations : Bool) :
    List (Work σ) → (List Outcome → Work σ) → Work σ :=
  if preparation.operation.kind = .mutation ∧ sequentialMutations then .inOrder else .group

def work (preparation : Preparation σ) (sequentialMutations : Bool) (rootValue : Json) :
    Work σ :=
  let depth := preparation.operation.selectionSet.depth preparation.execution.fragments
  preparation.execution.fields (preparation.execution.object depth)
    (preparation.arrange sequentialMutations) preparation.fields preparation.root rootValue []

end Preparation

/-! ## Carrying out -/

/-- The response to a request, together with what was left behind and what
happened on the way. -/
structure Report (σ : Type) where
  response : Response
  session : Session σ

def Outcome.toData : Outcome → Json
  | .value json => json
  | _ => .null

def Session.reporter (session : Session σ) : ErrorReporter :=
  session.faults.foldl (fun reporter fault => reporter.report fault.toError) .empty

theorem Session.errors_reporter (session : Session σ) :
    session.reporter.errors = session.faults.map FieldFault.toError :=
  ErrorReporter.errors_foldl_report FieldFault.toError session.faults .empty

/-- The response to an operation that was carried out. Nothing but the
cancellation is told of a request that was cancelled on the way. -/
def Response.ofOutcome (outcome : Outcome) (session : Session σ) : Response :=
  if session.shared.cancelled then .ofErrors [OperationFault.cancelled.toError]
  else (Response.ofData outcome.toData).withErrors session.reporter.errors

namespace Schema

def executeDocument (schema : Schema (Resolver σ)) (configuration : Configuration)
    (document : Document) (request : Request) (context : Context) (state : σ) : Report σ :=
  let session : Session σ := ⟨⟨state, request.cancelled⟩, []⟩
  if document.operations.isEmpty then ⟨.empty, session⟩
  else
    match schema.prepare configuration document request context with
    | .error fault => ⟨.ofErrors [fault.toError], session⟩
    | .ok preparation =>
        let (outcome, session) :=
          (preparation.work configuration.sequentialMutations request.rootValue).run session
        ⟨.ofOutcome outcome session, session⟩

def execute (schema : Schema (Resolver σ)) (configuration : Configuration)
    (request : Request) (context : Context) (state : σ) : Report σ :=
  match Document.parse request.query with
  | .error error =>
      ⟨.ofErrors [(OperationFault.malformed error).toError], ⟨⟨state, request.cancelled⟩, []⟩⟩
  | .ok document => schema.executeDocument configuration document request context state

def executeQuery (schema : Schema (Resolver σ)) (query : String) (operationName : Option String)
    (variableValues : Option (Entries Json)) (context : Option Context) (state : σ) : Report σ :=
  let request : Request :=
    { Request.ofQuery query with
      operationName := operationName
      variableValues := variableValues.getD [] }
  schema.execute .standard request (context.getD []) state

end Schema

end GraphQuery
