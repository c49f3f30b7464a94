import GraphQuery.Proofs.Selection.Inlining

/-! A document that passes the check of its spreads has none once they are replaced by
what they stand for, and passes the check again. -/

namespace GraphQuery

/-! ## Operations and fragments -/

namespace Document

variable {document : Document} {names : List String}

theorem operations_inlined (document : Document) :
    document.inlined.operations =
      document.operations.map (OperationDefinition.inlined document.fragments) := by
  simp only [operations, inlined, List.filterMap_map, List.map_filterMap]
  congr
  funext definition
  cases definition <;> rfl

theorem fragmentDefinitions_inlined (document : Document) :
    document.inlined.fragmentDefinitions =
      document.fragmentDefinitions.map (FragmentDefinition.inlined document.fragments) := by
  simp only [fragmentDefinitions, inlined, List.filterMap_map, List.map_filterMap]
  congr
  funext definition
  cases definition <;> rfl

theorem Order.bare_operations (order : document.Order names) :
    ∀ operation ∈ document.inlined.operations,
      Selection.spreadsAmong operation.selectionSet.selections = [] := by
  rw [operations_inlined, List.forall_mem_map]
  exact fun operation member =>
    order.ordered.spreadsAmong_inline (order.operations operation member)

end Document

/-! ## Checking what has no spreads -/

namespace Spreads

variable {table : FragmentTable} {entered : List String}
  {body : FragmentDefinition → Checked → Except SelectionFault Checked}

mutual

theorem checkOne_of_bare :
    (selection : Selection) → selection.spreads = [] → (checked : Checked) →
    checkOne table entered body selection checked = .ok checked
  | .leaf head, _, checked => rfl
  | .branch head selections braces, bare, checked => by
      rw [checkOne, checkAll_of_bare selections bare]
  | .inline head selections braces, bare, checked => by
      rw [checkOne, checkAll_of_bare selections bare]
  | .spread node, bare, checked => by cases bare

theorem checkAll_of_bare :
    (selections : List Selection) → Selection.spreadsAmong selections = [] →
    (checked : Checked) → checkAll table entered body selections checked = .ok checked
  | [], _, checked => rfl
  | selection :: rest, bare, checked => by
      rcases List.append_eq_nil_iff.mp bare with ⟨here, there⟩
      rw [checkAll, checkOne_of_bare selection here, Except.ok_bind, checkAll_of_bare rest there]

end

theorem checkOperations_of_bare {operations : List OperationDefinition}
    (bare : ∀ operation ∈ operations,
      Selection.spreadsAmong operation.selectionSet.selections = [])
    (checked : Checked) : checkOperations table operations checked = .ok checked := by
  induction operations with
  | nil => rfl
  | cons operation rest induction =>
      rw [List.forall_mem_cons] at bare
      rw [checkOperations, checkAll_of_bare _ bare.1, Except.ok_bind, induction bare.2]

theorem checkFragments_of_bare {fragments : List FragmentDefinition} {checked : Checked}
    (bare : ∀ {name fragment}, name ∉ checked →
      (fragments.find? fun fragment => fragment.name.text == name) = some fragment →
        Selection.spreadsAmong fragment.selectionSet.selections = []) :
    ∃ later, checkFragments table fragments checked = .ok later := by
  induction fragments generalizing checked with
  | nil => exact ⟨checked, rfl⟩
  | cons fragment rest induction =>
      have others : ∀ {more : Checked}, checked ⊆ more → fragment.name.text ∈ more →
          ∀ {name found}, name ∉ more →
            (rest.find? fun fragment => fragment.name.text == name) = some found →
              Selection.spreadsAmong found.selectionSet.selections = [] := by
        intro more subset known name found fresh last
        have different : fragment.name.text ≠ name := fun same => fresh (same ▸ known)
        refine bare (fun member => fresh (subset member)) ?_
        rw [List.find?_cons_of_neg (by simpa using different), last]
      simp only [checkFragments, List.contains_iff_mem]
      split
      · rename_i known
        exact induction (others (List.Subset.refl _) known)
      · rename_i unknown
        rw [checkBody, checkAll_of_bare _ (bare unknown (by simp)), Except.ok_bind]
        exact induction (others (List.subset_cons_self _ _) List.mem_cons_self)

end Spreads

theorem Document.Order.checkSpreads_inlined {document : Document} {names : List String}
    (order : document.Order names) : document.inlined.checkSpreads = .ok () := by
  have bare : ∀ {name fragment}, name ∉ ([] : Spreads.Checked) →
      (document.inlined.fragmentDefinitions.find? fun fragment => fragment.name.text == name) =
        some fragment → Selection.spreadsAmong fragment.selectionSet.selections = [] := by
    intro name fragment _ found
    rw [fragmentDefinitions_inlined, List.find?_map] at found
    rcases Option.map_eq_some_iff.mp found with ⟨original, first, rfl⟩
    have stands : Entries.get? name document.fragments = some original :=
      (FragmentTable.get?_ofDefinitions _ _).trans first
    rcases order.ordered.exists_of_mem (order.complete stands) with ⟨known, same, spreads⟩
    rw [stands, Option.some.injEq] at same
    exact order.ordered.spreadsAmong_inline (same ▸ spreads)
  rcases Spreads.checkFragments_of_bare bare with ⟨later, checked⟩
  rw [checkSpreads, Spreads.checkOperations_of_bare order.bare_operations, Except.ok_bind, checked]
  rfl

end GraphQuery
