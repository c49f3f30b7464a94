import GraphQuery.Proofs.Selection.InlinedDepth

/-! How deeply fields are nested, with fragments taken for what they stand for.
The depth that is measured with a memory of fragments bounds the nesting. -/

namespace GraphQuery

/-- Among the selections there are at most so many levels of fields. -/
inductive Selection.NestedWithin (table : FragmentTable) : Nat → List Selection → Prop where
  | nil {levels : Nat} : NestedWithin table levels []
  | leaf {levels : Nat} {head : FieldHead} {rest : List Selection}
      (others : NestedWithin table (levels + 1) rest) :
      NestedWithin table (levels + 1) (.leaf head :: rest)
  | branch {levels : Nat} {head : FieldHead} {selections : List Selection} {braces : Span}
      {rest : List Selection} (below : NestedWithin table levels selections)
      (others : NestedWithin table (levels + 1) rest) :
      NestedWithin table (levels + 1) (.branch head selections braces :: rest)
  | inline {levels : Nat} {head : InlineHead} {selections : List Selection} {braces : Span}
      {rest : List Selection} (inside : NestedWithin table levels selections)
      (others : NestedWithin table levels rest) :
      NestedWithin table levels (.inline head selections braces :: rest)
  | spread {levels : Nat} {node : FragmentSpread} {rest : List Selection}
      (inside : ∀ fragment, Entries.get? node.name.text table = some fragment →
        NestedWithin table levels fragment.selectionSet.selections)
      (others : NestedWithin table levels rest) :
      NestedWithin table levels (.spread node :: rest)

theorem Selection.NestedWithin.mono {table : FragmentTable} {levels more : Nat}
    {selections : List Selection} (nested : NestedWithin table levels selections)
    (bound : levels ≤ more) : NestedWithin table more selections := by
  induction nested generalizing more with
  | nil => exact .nil
  | leaf _ induction =>
      rcases Nat.exists_eq_add_of_le' (Nat.le_trans (Nat.le_add_left 1 _) bound) with ⟨fewer, rfl⟩
      exact .leaf (induction bound)
  | branch _ _ belowInduction induction =>
      rcases Nat.exists_eq_add_of_le' (Nat.le_trans (Nat.le_add_left 1 _) bound) with ⟨fewer, rfl⟩
      exact .branch (belowInduction (Nat.le_of_succ_le_succ bound)) (induction bound)
  | inline _ _ insideInduction induction =>
      exact .inline (insideInduction bound) (induction bound)
  | spread _ _ insideInduction induction =>
      exact .spread (fun fragment found => insideInduction fragment found bound) (induction bound)

/-! ## Measuring -/

namespace Selection

open FragmentTable

variable {table : FragmentTable} {names : List String}

theorem NestedWithin.cons {selection : Selection} {rest : List Selection} {first second : Nat}
    (here : NestedWithin table first [selection]) (there : NestedWithin table second rest) :
    NestedWithin table (max first second) (selection :: rest) := by
  have left := here.mono (Nat.le_max_left first second)
  have right := there.mono (Nat.le_max_right first second)
  generalize max first second = levels at left right ⊢
  cases left with
  | leaf => exact .leaf right
  | branch below => exact .branch below right
  | inline inside => exact .inline inside right
  | spread inside => exact .spread inside right

def NestedFor (table : FragmentTable) (names : List String) : Prop :=
  ∀ name ∈ names, ∀ fragment, Entries.get? name table = some fragment →
    NestedWithin table (fieldDepthAmong (table.inline fragment.selectionSet.selections))
      fragment.selectionSet.selections

mutual

theorem nestedWithin_inlineOne (ordered : table.Ordered names) (reliable : NestedFor table names) :
    (selection : Selection) → (∀ node ∈ selection.spreads, node.name.text ∈ names) →
    NestedWithin table (table.inlineOne selection).fieldDepth [selection]
  | .leaf head, _ => .leaf .nil
  | .branch head selections braces, within =>
      .branch (nestedWithin_inline ordered reliable selections within) .nil
  | .inline head selections braces, within =>
      .inline (nestedWithin_inline ordered reliable selections within) .nil
  | .spread node, within => by
      have member := within node (by simp [spreads])
      rcases ordered.exists_of_mem member with ⟨fragment, found, _⟩
      rw [ordered.inlineOne_spread member found, fieldDepth]
      refine .spread (fun other same => ?_) .nil
      rw [found, Option.some.injEq] at same
      exact same ▸ reliable _ member fragment found

theorem nestedWithin_inline (ordered : table.Ordered names) (reliable : NestedFor table names) :
    (selections : List Selection) → SpreadsWithin names selections →
    NestedWithin table (fieldDepthAmong (table.inline selections)) selections
  | [], _ => .nil
  | selection :: rest, within => by
      rcases spreadsWithin_cons.mp within with ⟨here, there⟩
      exact (nestedWithin_inlineOne ordered reliable selection here).cons
        (nestedWithin_inline ordered reliable rest there)

end

theorem nestedFor_of_ordered (ordered : table.Ordered names) : NestedFor table names := by
  induction ordered with
  | nil => simp [NestedFor]
  | cons found spreads _ ordered induction =>
      intro name member other otherFound
      rcases List.mem_cons.mp member with rfl | member
      · rw [found, Option.some.injEq] at otherFound
        exact otherFound ▸ nestedWithin_inline ordered induction _ spreads
      · exact induction name member other otherFound

end Selection

/-- The measured depth of an operation whose spreads lead to fragments in order. -/
theorem SelectionSet.nestedWithin_depth {table : FragmentTable} {names : List String}
    (keyed : table.Keyed) (ordered : table.Ordered names) {set : SelectionSet}
    (within : Selection.SpreadsWithin names set.selections) :
    Selection.NestedWithin table (set.depth table) set.selections := by
  rw [SelectionSet.depth_eq keyed ordered within]
  exact Selection.nestedWithin_inline ordered (Selection.nestedFor_of_ordered ordered) _ within

end GraphQuery
