import GraphQuery.Proofs.Execution.Objects
import GraphQuery.Proofs.Selection.MergedExpansion

/-! What an execution merges for an object are always different selection sets of the
operations and fields of the document, so no field of the document is merged twice. -/

namespace GraphQuery.Schema

variable {σ : Type} {schema : Schema (Resolver σ)} {configuration : Configuration}
  {document : Document} {request : Request} {context : Context} {preparation : Preparation σ}
  {rootValue : Json} {place : Path} {object : ObjectDefinition (Resolver σ)} {value : Json}
  {fields : FieldMap}

/-- The fields of every object are merged from selection sets of operations and fields, of
which none is used more often than it stands in the document. -/
theorem exists_ownSets_of_enters
    (prepared : schema.prepare configuration document request context = .ok preparation)
    (enters : preparation.Enters rootValue place object value fields) :
    ∃ sets : List SelectionSet, sets.Subperm document.ownSets ∧
      (preparation.execution.expansion object).merge sets = .ok fields := by
  rcases exists_plan_of_prepare prepared with ⟨plan, planned, rfl⟩
  have answers := answers_of_plan planned
  induction enters with
  | root =>
      have member := Document.mem_operations_of_selectOperation answers.operation
      refine ⟨[plan.operation.selectionSet], List.singleton_subperm_iff.mpr ?_, answers.fields⟩
      exact List.mem_append_left _ (List.mem_map_of_mem member)
  | inside _ member _ collected induction =>
      obtain ⟨sets, own, merged⟩ := induction
      have few := Document.subperm_nodes_of_merge rfl own merged
      exact ⟨_, FieldMap.selectionSets_subperm few member, collected⟩

theorem nodup_places_of_enters (apart : document.NodesApart)
    (prepared : schema.prepare configuration document request context = .ok preparation)
    (enters : preparation.Enters rootValue place object value fields) :
    (fields.nodes.map Field.place).Nodup := by
  obtain ⟨sets, own, merged⟩ := exists_ownSets_of_enters prepared enters
  have known : (preparation.execution.expansion object).fragments = document.fragments := by
    rcases exists_plan_of_prepare prepared with ⟨plan, _, rfl⟩
    rfl
  exact apart.nodup_places (Document.subperm_nodes_of_merge known own merged)

end GraphQuery.Schema
