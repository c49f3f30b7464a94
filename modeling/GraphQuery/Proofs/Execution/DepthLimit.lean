import GraphQuery.Proofs.Execution.Inlining
import GraphQuery.Proofs.Execution.Objects

/-! A limit of depth holds for what is carried out: nothing is called or reported below
more fields than it allows. -/

namespace GraphQuery

variable {σ : Type}

/-! ## Counting fields -/

def PathSegment.isKey : PathSegment → Bool
  | .key _ => true
  | .index _ => false

namespace Path

/-- How many fields lead to a place. Items of lists do not count. -/
def fieldCount (path : Path) : Nat := path.countP PathSegment.isKey

@[simp] theorem fieldCount_nil : fieldCount [] = 0 := rfl

@[simp] theorem fieldCount_concat (place : Path) (name : String) :
    fieldCount (place ++ [.key name]) = place.fieldCount + 1 := by
  simp [fieldCount, PathSegment.isKey]

@[simp] theorem fieldCount_item (place : Path) (positions : List Nat) :
    (place.item positions).fieldCount = place.fieldCount := by
  simp [fieldCount, item, List.countP_map, Function.comp_def, PathSegment.isKey]

end Path

/-! ## The budget of an object -/

namespace Preparation

variable {preparation : Preparation σ} {schema : Schema (Resolver σ)}
  {configuration : Configuration} {document : Document} {request : Request} {context : Context}
  {rootValue : Json}

/-- The fields that lead to a merged field, with itself, and the levels of its selections
together are no more than the depth of the operation. -/
theorem Enters.budget
    (prepared : schema.prepare configuration document request context = .ok preparation)
    {place : Path} {object : ObjectDefinition (Resolver σ)} {value : Json} {fields : FieldMap}
    (enters : preparation.Enters rootValue place object value fields) :
    ∀ merged ∈ fields, ∃ fewer,
      preparation.operation.selectionSet.depth preparation.execution.fragments =
        place.fieldCount + 1 + fewer ∧
      SelectionSet.AllWithin preparation.execution.fragments fewer merged.selectionSets := by
  induction enters with
  | root =>
      intro merged member
      rcases Schema.allWithin_prepared prepared member with ⟨fewer, depth, within⟩
      exact ⟨fewer, by rw [depth, Path.fieldCount_nil]; omega, within⟩
  | inside _ member _ collected induction =>
      rcases induction _ member with ⟨levels, depth, within⟩
      intro merged inner
      rcases Expansion.allWithin_selectionSets collected within inner with ⟨fewer, rfl, below⟩
      refine ⟨fewer, ?_, below⟩
      rw [depth, Path.fieldCount_item, Path.fieldCount_concat]
      omega

theorem Allows.fieldCount_le
    (prepared : schema.prepare configuration document request context = .ok preparation)
    {known : List Event} {event : Event} (allows : preparation.Allows rootValue known event) :
    event.path.fieldCount ≤
      preparation.operation.selectionSet.depth preparation.execution.fragments := by
  have bound : ∀ {place merged}, preparation.Asks rootValue known place merged →
      place.fieldCount + 1 ≤
        preparation.operation.selectionSet.depth preparation.execution.fragments := by
    intro place merged asks
    rcases asks.entered with ⟨object, value, fields, enters, member⟩
    rcases enters.budget prepared merged member with ⟨fewer, depth, _⟩
    omega
  cases allows with
  | called asks => simpa [Event.path] using bound asks
  | answered asks => simpa [Event.path] using bound asks
  | failed asks found => simpa [Event.path, found] using bound asks

end Preparation

namespace Schema

variable {schema : Schema (Resolver σ)} {configuration : Configuration} {document : Document}
  {request : Request} {context : Context} {state : σ} {report : Report σ}

theorem depth_le_of_prepare {preparation : Preparation σ} {limit : Nat}
    (limited : configuration.maxDepth = some limit)
    (prepared : schema.prepare configuration document request context = .ok preparation) :
    document.selectOperation request.operationName = .ok preparation.operation ∧
      preparation.execution.fragments = document.fragments ∧
      preparation.operation.selectionSet.depth document.fragments ≤ limit := by
  rcases Except.exists_of_bind prepared with ⟨⟨⟩, _, prepared⟩
  rcases Except.exists_of_bind prepared with ⟨operation, selected, prepared⟩
  rcases Except.exists_of_bind prepared with ⟨root, _, prepared⟩
  rcases Except.exists_of_bind prepared with ⟨bindings, _, prepared⟩
  rcases Except.exists_of_bind prepared with ⟨⟨⟩, depth, prepared⟩
  rcases Except.exists_of_bind prepared with ⟨fields, _, prepared⟩
  cases prepared
  refine ⟨selected, rfl, Nat.not_lt.mp fun deeper => ?_⟩
  simp [checkDepth, limited, deeper] at depth

/-- Whatever the resolvers do, no resolver is called and no fault is found below more fields
than the limit of depth; and of an operation that is deeper nothing is carried out. -/
theorem depth_limit_bounds {limit : Nat} (limited : configuration.maxDepth = some limit)
    (reports : schema.MayReport configuration document request context state report) :
    (∀ event ∈ report.session.events, event.path.fieldCount ≤ limit) ∧
    (∀ error ∈ report.response.errors.getD [], error.path.fieldCount ≤ limit) ∧
    ∀ operation, document.selectOperation request.operationName = .ok operation →
      limit < operation.selectionSet.depth document.fragments →
        report.response.data = none ∧ report.session.events = [] := by
  have events : ∀ event ∈ report.session.events, event.path.fieldCount ≤ limit := by
    intro event member
    rcases reports.governed with nothing | ⟨preparation, prepared, governs⟩
    · rw [nothing] at member
      cases member
    · rcases depth_le_of_prepare limited prepared with ⟨_, fragments, depth⟩
      have bound := Preparation.Allows.fieldCount_le prepared (governs.allows_of_mem member)
      rw [fragments] at bound
      exact bound.trans depth
  refine ⟨events, ?_, ?_⟩
  · intro error member
    rcases reports.exists_fault_of_error member with root | ⟨fault, happened, rfl⟩
    · rw [root]
      exact Nat.zero_le limit
    · exact events _ happened
  · intro operation selected deeper
    cases reports with
    | empty => exact ⟨rfl, rfl⟩
    | refused => exact ⟨rfl, rfl⟩
    | carriedOut _ prepared =>
        rcases depth_le_of_prepare limited prepared with ⟨same, _, depth⟩
        rw [selected, Except.ok.injEq] at same
        subst same
        exact absurd deeper (Nat.not_lt.mpr depth)

end Schema

namespace Visit

def limited (limit : Nat) : Configuration := { Configuration.standard with maxDepth := some limit }

def limitedReport (limit : Nat) : Report Unit :=
  (schema (.pure answer)).executeDocument (limited limit) spreading request [] ()

/-- Fragments lead to the names of the visitors, which are two fields deep. -/
theorem visit_within_limits :
    (∀ event ∈ (limitedReport 2).session.events, event.path.fieldCount ≤ 2) ∧
      (∀ error ∈ (limitedReport 2).response.errors.getD [], error.path.fieldCount ≤ 2) ∧
      (limitedReport 1).response.data = none ∧ (limitedReport 1).session.events = [] := by
  have within := @Schema.depth_limit_bounds Unit _ _ _ _ _ _ _ 2 rfl
    (Schema.mayReport_executeDocument (schema (.pure answer)) (limited 2) spreading request [] ())
  have beyond := @Schema.depth_limit_bounds Unit _ _ _ _ _ _ _ 1 rfl
    (Schema.mayReport_executeDocument (schema (.pure answer)) (limited 1) spreading request [] ())
  exact ⟨within.1, within.2.1, beyond.2.2 _ rfl (by decide)⟩

end Visit

end GraphQuery
