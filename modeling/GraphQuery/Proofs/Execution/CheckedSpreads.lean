import GraphQuery.Proofs.Execution.Inlining
import GraphQuery.Proofs.Execution.Objects
import GraphQuery.Proofs.Selection.MergeFaults

/-! Once the spreads of a document have been checked, nothing that is carried out comes upon
an unknown fragment or a cycle. -/

namespace GraphQuery

variable {σ : Type}

theorem Document.Order.isDirective_of_merge {document : Document} {names : List String}
    (order : document.Order names) {ρ : Type} {expansion : Expansion ρ}
    (known : expansion.fragments = document.fragments) {sets : List SelectionSet}
    (all : ∀ set ∈ sets, document.HasSet set) {fault : SelectionFault}
    (refused : expansion.merge sets = .error fault) : fault.IsDirective := by
  have keyed := FragmentTable.keyed_ofDefinitions document.fragmentDefinitions
  exact Expansion.isDirective_of_merge (known ▸ keyed) (known ▸ order.ordered)
    (fun set member => order.within_of_hasSet (all set member)) refused

namespace Schema

variable {schema : Schema (Resolver σ)} {configuration : Configuration} {document : Document}
  {request : Request} {context : Context}

/-- The selections below every merged field of an object occur in the document. -/
theorem hasSet_of_enters {preparation : Preparation σ} {rootValue : Json}
    (prepared : schema.prepare configuration document request context = .ok preparation)
    {place : Path} {object : ObjectDefinition (Resolver σ)} {value : Json} {fields : FieldMap}
    (enters : preparation.Enters rootValue place object value fields) :
    ∀ merged ∈ fields, ∀ set ∈ merged.selectionSets, document.HasSet set := by
  rcases exists_plan_of_prepare prepared with ⟨plan, planned, rfl⟩
  have answers := answers_of_plan planned
  induction enters with
  | root =>
      refine Document.hasSet_of_merge rfl answers.fields fun set only => ?_
      rw [List.mem_singleton.mp only]
      exact .operation (Document.mem_operations_of_selectOperation answers.operation)
  | inside _ member _ collected induction =>
      exact Document.hasSet_of_merge rfl collected (induction _ member)

end Schema

theorem Document.selectOperation_ne_selections (document : Document) (name : Option String)
    (fault : SelectionFault) : document.selectOperation name ≠ .error (.selections fault) := by
  unfold selectOperation
  split
  · split <;> simp
  · simp
  · simp

theorem checkDepth_ne_selections (limit : Option Nat) (depth : Nat) (fault : SelectionFault) :
    checkDepth limit depth ≠ .error (.selections fault) := by
  unfold checkDepth
  split
  · split <;> simp
  · simp

theorem Schema.isDirective_of_prepare {schema : Schema (Resolver σ)}
    {configuration : Configuration} {document : Document} {request : Request} {context : Context}
    (passed : document.checkSpreads = .ok ()) {fault : SelectionFault}
    (refused : schema.prepare configuration document request context =
      .error (.selections fault)) : fault.IsDirective := by
  rcases document.exists_order_of_checkSpreads passed with ⟨names, order⟩
  rcases Except.of_bind_error refused with spreads | ⟨⟨⟩, _, refused⟩
  · rcases Except.exists_of_mapError spreads with ⟨_, failed, _⟩
    rw [passed] at failed
    cases failed
  rcases Except.of_bind_error refused with unselected | ⟨operation, selected, refused⟩
  · exact absurd unselected (document.selectOperation_ne_selections _ fault)
  rcases Except.of_bind_error refused with unsupported | ⟨root, _, refused⟩
  · cases found : schema.root? operation.kind <;> simp [found] at unsupported
  rcases Except.of_bind_error refused with unbound | ⟨bindings, _, refused⟩
  · rcases Except.exists_of_mapError unbound with ⟨_, _, same⟩
    cases same
  rcases Except.of_bind_error refused with deep | ⟨⟨⟩, _, refused⟩
  · exact absurd deep (checkDepth_ne_selections _ _ fault)
  rcases Except.of_bind_error refused with unmerged | ⟨fields, _, done⟩
  · rcases Except.exists_of_mapError unmerged with ⟨cause, failed, same⟩
    cases same
    refine order.isDirective_of_merge rfl (fun set only => ?_) failed
    rw [List.mem_singleton.mp only]
    exact .operation (Document.mem_operations_of_selectOperation selected)
  · cases done

/-- In a document whose spreads have been checked, selections can only fail to be merged
because of a condition: whichever selection sets of the document are merged, and so for the
top-level fields and for every object of every execution. -/
theorem Document.merges_but_for_conditions {document : Document}
    (passed : document.checkSpreads = .ok ()) :
    (∀ (ρ : Type) (schema : Schema ρ) (object : ObjectDefinition ρ) (bindings : Variables)
      (sets : List SelectionSet), (∀ set ∈ sets, document.HasSet set) → ∀ fault,
        (⟨schema, object, document.fragments, bindings⟩ : Expansion ρ).merge sets =
          .error fault → fault.IsDirective) ∧
    ∀ (schema : Schema (Resolver σ)) (configuration : Configuration) (request : Request)
      (context : Context),
      (∀ fault, schema.prepare configuration document request context =
        .error (.selections fault) → fault.IsDirective) ∧
      ∀ (state : σ) (report : Report σ),
        schema.MayReport configuration document request context state report →
        ∀ fault cause, Event.failed fault ∈ report.session.events →
          fault.cause = .selections cause → cause.IsDirective := by
  rcases document.exists_order_of_checkSpreads passed with ⟨names, order⟩
  refine ⟨fun ρ schema object bindings sets all fault refused =>
    order.isDirective_of_merge rfl all refused, ?_⟩
  intro schema configuration request context
  refine ⟨fun fault refused => Schema.isDirective_of_prepare passed refused, ?_⟩
  intro state report reports fault cause happened isSelections
  rcases reports.governed with nothing | ⟨preparation, prepared, governs⟩
  · rw [nothing] at happened
    cases happened
  · cases governs.allows_of_mem happened with
    | failed asks _ selections =>
        rcases asks.entered with ⟨_, _, _, enters, member⟩
        rcases selections cause isSelections with ⟨object, refused⟩
        have occur := Schema.hasSet_of_enters prepared enters _ member
        rcases Schema.exists_plan_of_prepare prepared with ⟨plan, _, rfl⟩
        exact order.isDirective_of_merge rfl occur refused

namespace Visit

def undecided : Directive := ⟨⟨"skip", ⟨7, 12⟩, ⟨1, 8⟩⟩, [], ⟨7, 12⟩, ⟨1, 8⟩⟩

def naming : OperationDefinition :=
  { operation with
    selectionSet := ⟨[.branch (head "host" 2 6) [spreadOf "Named" 9 17] ⟨7, 19⟩], ⟨0, 21⟩⟩ }

/-- The query with a fragment whose only field has the condition. -/
def conditional : Document where
  definitions :=
    [.operation naming,
      .fragment (fragment "Named" "Person"
        [.leaf { head "name" 2 6 with directives := [undecided] }])]
  span := ⟨0, 21⟩

def indecision : FieldFault where
  cause := .selections (.invalidDirective "skip" ⟨1, 8⟩)
  field := ⟨1, 3⟩
  path := [.key "host"]

def hosted : Preparation Unit where
  execution := ⟨schema (.pure answer), conditional.fragments, [], [], none⟩
  operation := naming
  root := query (.pure answer)
  fields := [⟨"host", ⟨head "host" 2 6, some ⟨[spreadOf "Named" 9 17], ⟨7, 19⟩⟩⟩, []⟩]

def interrupted : Session Unit where
  shared := ⟨(), false⟩
  journal := [.failed indecision, .answered [.key "host"], .called [.key "host"]]

theorem mayReport_interrupted :
    (schema (.pure answer)).MayReport .standard conditional request [] ()
      ⟨.ofOutcome (.value (.object [("host", .null)])) interrupted, interrupted⟩ := by
  have ran : (hosted.workAs .group .null).run ⟨⟨(), false⟩, []⟩ =
      (.value (.object [("host", .null)]), interrupted) := by
    cbv
  have reaches := Work.run_reaches (hosted.workAs .group .null) ⟨⟨(), false⟩, []⟩
  rw [ran] at reaches
  exact .carriedOut rfl rfl (.inl rfl) reaches

theorem host_interrupted_by_condition :
    conditional.checkSpreads = .ok () ∧ Event.failed indecision ∈ interrupted.events ∧
      SelectionFault.IsDirective (.invalidDirective "skip" ⟨1, 8⟩) := by
  have passed : conditional.checkSpreads = .ok () := rfl
  have happened : Event.failed indecision ∈ interrupted.events := by
    simp [interrupted, Session.events]
  have checked := @Document.merges_but_for_conditions Unit conditional passed
  exact ⟨passed, happened, (checked.2 (schema (.pure answer)) .standard request []).2 () _
    mayReport_interrupted indecision _ happened rfl⟩

end Visit

end GraphQuery
