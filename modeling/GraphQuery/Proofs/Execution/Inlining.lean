import GraphQuery.Proofs.Execution.Reports
import GraphQuery.Proofs.Selection.InlinedDepth
import GraphQuery.Proofs.Selection.InlinedDocument
import GraphQuery.Proofs.Selection.InlinedFields

/-! A spread means the body of its fragment. A document and the same document without
spreads are carried out by the same work, so that every schedule tells of them the same. -/

namespace GraphQuery

variable {σ : Type}

/-! ## Fields that stand for fields -/

namespace MergedField.StandsFor

variable {table : FragmentTable} {merged other : MergedField}

theorem head_eq (stands : StandsFor (Field.inlined table) merged other) :
    other.first.head = merged.first.head := by
  rw [stands.first]
  rfl

theorem selectionSets (stands : StandsFor (Field.inlined table) merged other) :
    Repeats (SelectionSet.inlined table) merged.selectionSets other.selectionSets :=
  stands.nodes.filterMap fun _ => rfl

end MergedField.StandsFor

def MergedField.Within (names : List String) (merged : MergedField) : Prop :=
  ∀ set ∈ merged.selectionSets, Selection.SpreadsWithin names set.selections

theorem Selection.Offers.within {table : FragmentTable} {names : List String}
    (ordered : table.Ordered names) {selections : List Selection} {field : Field}
    (offers : Offers table selections field) (within : SpreadsWithin names selections) :
    ∀ set, field.selectionSet = some set → SpreadsWithin names set.selections := by
  induction offers with
  | leaf => simp
  | branch =>
      rintro _ ⟨⟩
      exact (spreadsWithin_cons.mp within).1
  | inline _ induction => exact induction (spreadsWithin_cons.mp within).1
  | @spread node _ fragment _ found _ induction =>
      rcases ordered.exists_of_mem ((spreadsWithin_cons.mp within).1 node (by simp [spreads]))
        with ⟨known, same, spreads⟩
      rw [found, Option.some.injEq] at same
      exact induction (same ▸ spreads)
  | later _ induction => exact induction (spreadsWithin_cons.mp within).2

theorem Expansion.within_of_merge {ρ : Type} {expansion : Expansion ρ} {names : List String}
    (ordered : expansion.fragments.Ordered names) {sets : List SelectionSet} {fields : FieldMap}
    (done : expansion.merge sets = .ok fields)
    (within : ∀ set ∈ sets, Selection.SpreadsWithin names set.selections) :
    ∀ merged ∈ fields, MergedField.Within names merged := by
  have holds := holds_merge (fun field => ∀ set, field.selectionSet = some set →
    Selection.SpreadsWithin names set.selections) done
    fun set member field offers => offers.within ordered (within set member)
  exact holds.selectionSets

/-! ## The same work -/

namespace Execution

variable {execution : Execution σ} {names : List String}

def withFragments (execution : Execution σ) (table : FragmentTable) : Execution σ :=
  { execution with fragments := table }

theorem field_inlined (table : FragmentTable) {merged other : MergedField}
    (stands : merged.StandsFor (Field.inlined execution.fragments) other)
    {below others : MergedField → ObjectWork σ} (same : others other = below merged)
    (object : ObjectDefinition (Resolver σ)) (parent : Json) (path : Path) :
    (execution.withFragments table).field others object parent path other =
      execution.field below object parent path merged := by
  have head := stands.head_eq
  simp only [field, definedField, stands.key, MergedField.name, MergedField.arguments,
    MergedField.location, head, same]
  rfl

theorem fields_inlined (table : FragmentTable) {fields followers : FieldMap}
    (stand : FieldMap.StandFor (Field.inlined execution.fragments) fields followers)
    {below others : MergedField → ObjectWork σ}
    (same : ∀ merged ∈ fields, ∀ other,
      MergedField.StandsFor (Field.inlined execution.fragments) merged other →
        others other = below merged)
    (arrange : List (Work σ) → (List Outcome → Work σ) → Work σ) :
    (execution.withFragments table).fields others arrange followers =
      execution.fields below arrange fields := by
  funext object value path
  have both : followers.map ((execution.withFragments table).field others object value path) =
      fields.map (execution.field below object value path) ∧
      followers.map MergedField.key = fields.map MergedField.key := by
    induction stand with
    | nil => exact ⟨rfl, rfl⟩
    | cons stands _ induction =>
        rw [List.forall_mem_cons] at same
        rcases induction same.2 with ⟨works, keys⟩
        simp only [List.map_cons, works, keys, stands.key,
          field_inlined table stands (same.1 _ stands), and_self]
  rw [Execution.fields, Execution.fields, both.1, both.2]

theorem object_inlined (keyed : execution.fragments.Keyed)
    (ordered : execution.fragments.Ordered names) (table : FragmentTable) (levels : Nat)
    {merged other : MergedField} (within : merged.Within names)
    (stands : merged.StandsFor (Field.inlined execution.fragments) other) :
    (execution.withFragments table).object levels other = execution.object levels merged := by
  induction levels generalizing merged other with
  | zero => rfl
  | succ levels induction =>
      funext object value path
      have fragments : (execution.expansion object).fragments = execution.fragments := rfl
      have either := (execution.expansion object).merge_inlined keyed ordered within
        stands.selectionSets table
      have same : (execution.withFragments table).expansion object =
          { execution.expansion object with fragments := table } := rfl
      rw [Execution.object, Execution.object, same]
      rcases either with ⟨fault, refused, also⟩ | ⟨fields, followers, done, also, stand⟩
      · rw [refused, also]
        simp only [MergedField.name, MergedField.location, stands.head_eq]
      · have inside := Expansion.within_of_merge ordered done within
        rw [done, also]
        exact congrFun (congrFun (congrFun (fields_inlined table stand
          (fun merged member other stands => induction (inside merged member) stands) .group)
          object) value) path

end Execution

/-! ## The same preparation -/

namespace Document

variable {document : Document} {names : List String}

theorem selectOperation_inlined (document : Document) (name : Option String) :
    document.inlined.selectOperation name =
      (document.selectOperation name).map (OperationDefinition.inlined document.fragments) := by
  cases name with
  | none =>
      simp only [selectOperation, operations_inlined]
      rcases document.operations with _ | ⟨operation, _ | ⟨other, rest⟩⟩ <;> rfl
  | some name =>
      simp only [selectOperation, operation?, operations_inlined, List.find?_map,
        Function.comp_def, OperationDefinition.inlined]
      cases document.operations.find? fun definition =>
        definition.name.any fun operationName => operationName.text == name <;> rfl

theorem Order.within_of_selectOperation (order : document.Order names) {name : Option String}
    {operation : OperationDefinition} (selected : document.selectOperation name = .ok operation) :
    Selection.SpreadsWithin names operation.selectionSet.selections :=
  order.operations operation (mem_operations_of_selectOperation selected)

end Document

namespace Preparation

/-- Preparations that ask for the same work, whatever way its parts are arranged. -/
structure SameWork (preparation other : Preparation σ) : Prop where
  kind : other.operation.kind = preparation.operation.kind
  workAs : ∀ arrange rootValue,
    other.workAs arrange rootValue = preparation.workAs arrange rootValue

theorem SameWork.work {preparation other : Preparation σ}
    (same : preparation.SameWork other) (sequentialMutations : Bool) (rootValue : Json) :
    other.work sequentialMutations rootValue = preparation.work sequentialMutations rootValue := by
  have arranged : other.arrange sequentialMutations = preparation.arrange sequentialMutations := by
    rw [arrange, arrange, same.kind]
  change other.workAs (other.arrange sequentialMutations) rootValue = _
  rw [same.workAs, arranged]
  rfl

/-- Requests that are refused in the same way or prepared for the same work. -/
inductive Alike : Except OperationFault (Preparation σ) →
    Except OperationFault (Preparation σ) → Prop where
  | refused (fault : OperationFault) : Alike (.error fault) (.error fault)
  | prepared {preparation other : Preparation σ} (same : preparation.SameWork other) :
      Alike (.ok preparation) (.ok other)

theorem Alike.symm {first second : Except OperationFault (Preparation σ)}
    (alike : Alike first second) : Alike second first := by
  cases alike with
  | refused fault => exact .refused fault
  | prepared same =>
      exact .prepared ⟨same.kind.symm, fun arrange value => (same.workAs arrange value).symm⟩

end Preparation

theorem merge_operation_inlined {table : FragmentTable} {names : List String}
    {operation : OperationDefinition} (keyed : table.Keyed) (ordered : table.Ordered names)
    (within : Selection.SpreadsWithin names operation.selectionSet.selections)
    (other : FragmentTable) (execution : Execution σ) (knows : execution.fragments = table)
    (root : ObjectDefinition (Resolver σ)) :
    let prepared (operation : OperationDefinition) (execution : Execution σ) :=
      (((execution.expansion root).merge [operation.selectionSet]).mapError
        OperationFault.selections).map fun fields =>
          Preparation.mk execution operation root fields
    Preparation.Alike (prepared operation execution)
      (prepared (operation.inlined table) (execution.withFragments other)) := by
  subst knows
  have allWithin : ∀ set ∈ [operation.selectionSet],
      Selection.SpreadsWithin names set.selections := by
    simpa using within
  have single : Repeats (SelectionSet.inlined execution.fragments) [operation.selectionSet]
      [(operation.inlined execution.fragments).selectionSet] :=
    .first operation.selectionSet .nil
  have expansion : (execution.withFragments other).expansion root =
      { execution.expansion root with fragments := other } := rfl
  intro prepared
  simp only [prepared, expansion]
  rcases (execution.expansion root).merge_inlined keyed ordered allWithin single other
    with ⟨fault, refused, also⟩ | ⟨fields, followers, done, also, stand⟩
  · rw [refused, also]
    exact .refused _
  · rw [done, also]
    refine .prepared ⟨rfl, fun arrange rootValue => ?_⟩
    have inside := Expansion.within_of_merge ordered done allWithin
    have depth : (operation.inlined execution.fragments).selectionSet.depth other =
        operation.selectionSet.depth execution.fragments :=
      SelectionSet.depth_inlined keyed ordered within other
    have below : ∀ merged ∈ fields, ∀ follower,
        MergedField.StandsFor (Field.inlined execution.fragments) merged follower →
          (execution.withFragments other).object (operation.selectionSet.depth
              execution.fragments) follower =
            execution.object (operation.selectionSet.depth execution.fragments) merged :=
      fun merged member follower stands =>
        Execution.object_inlined keyed ordered other _ (inside merged member) stands
    have works := Execution.fields_inlined other stand below arrange
    have known : (execution.withFragments other).fragments = other := rfl
    simp only [Preparation.workAs, known, depth, works]

namespace Schema

variable {schema : Schema (Resolver σ)} {configuration : Configuration} {document : Document}
  {request : Request} {context : Context} {state : σ} {names : List String}

/-- A request for a document is refused in the same way, or prepared for the same work,
once the document has no spreads. -/
theorem prepare_inlined (passed : document.checkSpreads = .ok ()) (order : document.Order names) :
    Preparation.Alike (schema.prepare configuration document request context)
      (schema.prepare configuration document.inlined request context) := by
  have keyed : document.fragments.Keyed :=
    FragmentTable.keyed_ofDefinitions document.fragmentDefinitions
  unfold prepare
  rw [passed, order.checkSpreads_inlined, document.selectOperation_inlined]
  cases selected : document.selectOperation request.operationName with
  | error fault => exact .refused fault
  | ok operation =>
      have within := order.within_of_selectOperation selected
      have depth : (operation.inlined document.fragments).selectionSet.depth
          document.inlined.fragments = operation.selectionSet.depth document.fragments :=
        SelectionSet.depth_inlined keyed order.ordered within _
      have kind : (operation.inlined document.fragments).kind = operation.kind := rfl
      have variableDefinitions : (operation.inlined document.fragments).variableDefinitions =
          operation.variableDefinitions := rfl
      simp only [Except.mapError, Except.map, Except.ok_bind, kind, variableDefinitions, depth]
      cases schema.root? operation.kind with
      | none => exact .refused _
      | some root =>
          simp only [Option.elim_some, Except.ok_bind]
          cases schema.coerceVariables operation.variableDefinitions request.variableValues with
          | error fault => exact .refused _
          | ok bindings =>
              simp only [Except.ok_bind]
              cases checkDepth configuration.maxDepth
                (operation.selectionSet.depth document.fragments) with
              | error fault => exact .refused _
              | ok =>
                  exact merge_operation_inlined keyed order.ordered within
                    document.inlined.fragments ⟨schema, document.fragments, bindings, context,
                      configuration.fieldTimeout⟩ rfl root

theorem MayReport.of_alike {other : Document} {report : Report σ}
    (empty : other.operations.isEmpty = document.operations.isEmpty)
    (alike : Preparation.Alike (schema.prepare configuration document request context)
      (schema.prepare configuration other request context))
    (reports : schema.MayReport configuration document request context state report) :
    schema.MayReport configuration other request context state report := by
  cases reports with
  | empty nothing => exact .empty (empty.trans nothing)
  | refused something refused =>
      rw [refused] at alike
      generalize found : schema.prepare configuration other request context = result at alike
      cases alike
      exact .refused (empty.trans something) found
  | carriedOut something prepared arranged reaches =>
      rw [prepared] at alike
      generalize found : schema.prepare configuration other request context = result at alike
      cases alike with
      | prepared same =>
          rw [← same.workAs] at reaches
          exact .carriedOut (empty.trans something) found arranged reaches

/-- A spread means the body of its fragment: with the spreads replaced, a document has the
same reports under every schedule, and the same one when it is executed. -/
theorem spreads_mean_bodies (passed : document.checkSpreads = .ok ())
    (schema : Schema (Resolver σ)) (configuration : Configuration) (request : Request)
    (context : Context) (state : σ) :
    (∀ operation ∈ document.inlined.operations,
      Selection.spreadsAmong operation.selectionSet.selections = []) ∧
    (∀ (node : FragmentSpread) (fragment : FragmentDefinition),
      Entries.get? node.name.text document.fragments = some fragment →
        document.fragments.inlineOne (.spread node) =
          .inline (node.inlined fragment)
            (document.fragments.inline fragment.selectionSet.selections)
            fragment.selectionSet.span) ∧
    schema.executeDocument configuration document.inlined request context state =
      schema.executeDocument configuration document request context state ∧
    ∀ report, schema.MayReport configuration document.inlined request context state report ↔
      schema.MayReport configuration document request context state report := by
  rcases document.exists_order_of_checkSpreads passed with ⟨names, order⟩
  have empty : document.inlined.operations.isEmpty = document.operations.isEmpty := by
    rw [document.operations_inlined, List.isEmpty_map]
  have alike : Preparation.Alike (schema.prepare configuration document request context)
      (schema.prepare configuration document.inlined request context) :=
    prepare_inlined passed order
  refine ⟨order.bare_operations,
    fun node fragment found => order.ordered.inlineOne_spread (order.complete found) found,
    ?_, fun report => ⟨.of_alike empty.symm alike.symm, .of_alike empty alike⟩⟩
  rw [executeDocument, executeDocument, empty]
  generalize schema.prepare configuration document request context = first at alike
  generalize schema.prepare configuration document.inlined request context = second at alike
  cases alike with
  | refused fault => rfl
  | prepared same => simp only [same.work]

end Schema

/-! ## Fragments for a visit -/

namespace Visit

def spreadOf (name : String) (start stop : Nat) : Selection :=
  .spread ⟨⟨name, ⟨start + 3, stop⟩, ⟨1, start + 4⟩⟩, [], ⟨start, stop⟩, ⟨1, start + 1⟩⟩

def fragment (name condition : String) (selections : List Selection) : FragmentDefinition where
  name := ⟨name, ⟨0, 0⟩, ⟨2, 1⟩⟩
  typeCondition := ⟨condition, ⟨0, 0⟩, ⟨2, 1⟩⟩
  directives := []
  selectionSet := ⟨selections, ⟨0, 0⟩⟩
  span := ⟨0, 0⟩
  location := ⟨2, 1⟩

/-- The query `{ ...All host { ...Named } ...All }` with its two fragments, one of which
spreads the other twice. -/
def spreading : Document where
  definitions :=
    [.operation { operation with
        selectionSet :=
          ⟨[spreadOf "All" 2 8, .branch (head "host" 9 13) [spreadOf "Named" 16 24] ⟨14, 26⟩,
            spreadOf "All" 27 33], ⟨0, 35⟩⟩ },
      .fragment (fragment "All" "Query"
        [.branch (head "host" 2 6) [spreadOf "Named" 9 17] ⟨7, 19⟩,
          .branch (head "guest" 20 25) [spreadOf "Named" 28 36] ⟨26, 38⟩]),
      .fragment (fragment "Named" "Person" [.leaf (head "name" 2 6)])]
  span := ⟨0, 35⟩

theorem spreads_of_a_visit :
    spreading.checkSpreads = .ok () ∧
      (schema (.pure answer)).executeDocument .standard spreading.inlined request [] () =
        (schema (.pure answer)).executeDocument .standard spreading request [] () := by
  have passed : spreading.checkSpreads = .ok () := rfl
  exact ⟨passed,
    (Schema.spreads_mean_bodies passed (schema (.pure answer)) .standard request [] ()).2.2.1⟩

end Visit

end GraphQuery
