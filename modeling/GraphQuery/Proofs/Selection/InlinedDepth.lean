import GraphQuery.Proofs.Selection.Inlining

/-! How deeply fields are nested is measured with a memory of fragments, and comes out as
if every spread had been replaced by what it stands for. -/

namespace GraphQuery

namespace Selection

mutual
def fieldDepth : Selection → Nat
  | .leaf _ => 1
  | .branch _ selections _ => fieldDepthAmong selections + 1
  | .inline _ selections _ => fieldDepthAmong selections
  | .spread _ => 0

def fieldDepthAmong : List Selection → Nat
  | [] => 0
  | selection :: rest => max (fieldDepth selection) (fieldDepthAmong rest)
end

end Selection

namespace Depth

open Selection

variable {table : FragmentTable} {names : List String}
  {ofFragment : FragmentDefinition → Measured → Nat × Measured}

mutual

theorem ofOne_of_bare :
    (selection : Selection) → selection.spreads = [] → (measured : Measured) →
    ofOne table ofFragment selection measured = (selection.fieldDepth, measured)
  | .leaf head, _, measured => rfl
  | .branch head selections braces, bare, measured => by
      rw [ofOne, ofAll_of_bare selections bare, fieldDepth]
  | .inline head selections braces, bare, measured => by
      rw [ofOne, ofAll_of_bare selections bare, fieldDepth]
  | .spread node, bare, measured => by cases bare

theorem ofAll_of_bare :
    (selections : List Selection) → spreadsAmong selections = [] → (measured : Measured) →
    ofAll table ofFragment selections measured = (fieldDepthAmong selections, measured)
  | [], _, measured => rfl
  | selection :: rest, bare, measured => by
      rcases List.append_eq_nil_iff.mp bare with ⟨here, there⟩
      simp only [ofAll, ofOne_of_bare selection here, ofAll_of_bare rest there, fieldDepthAmong]

end

def Exact (table : FragmentTable) (names : List String) (measured : Measured) : Prop :=
  ∀ name ∈ names, ∀ fragment, Entries.get? name table = some fragment →
    ∀ depth, Entries.get? name measured = some depth →
      depth = fieldDepthAmong (table.inline fragment.selectionSet.selections)

/-- A measurement gives a certain depth, and records depths for the names alone. -/
structure Measures (table : FragmentTable) (names : List String) (depth : Nat)
    (measured : Measured) (result : Nat × Measured) : Prop where
  depth : result.1 = depth
  exact : Exact table names result.2
  unchanged : ∀ other, other ∉ names →
    Entries.get? other result.2 = Entries.get? other measured

/-- A way to measure fragments that is exact for the names. -/
def ExactFor (table : FragmentTable) (names : List String)
    (ofFragment : FragmentDefinition → Measured → Nat × Measured) : Prop :=
  ∀ name ∈ names, ∀ fragment, Entries.get? name table = some fragment →
    ∀ measured, Exact table names measured →
      Measures table names (fieldDepthAmong (table.inline fragment.selectionSet.selections))
        measured (ofFragment fragment measured)

mutual

theorem measures_ofOne (ordered : table.Ordered names)
    (reliable : ExactFor table names ofFragment) :
    (selection : Selection) → (measured : Measured) → Exact table names measured →
    (∀ node ∈ selection.spreads, node.name.text ∈ names) →
    Measures table names (table.inlineOne selection).fieldDepth measured
      (ofOne table ofFragment selection measured)
  | .leaf head, measured, exact, _ => ⟨rfl, exact, fun _ _ => rfl⟩
  | .branch head selections braces, measured, exact, within => by
      have below := measures_ofAll ordered reliable selections measured exact within
      exact ⟨congrArg (· + 1) below.depth, below.exact, below.unchanged⟩
  | .inline head selections braces, measured, exact, within =>
      measures_ofAll ordered reliable selections measured exact within
  | .spread node, measured, exact, within => by
      have member := within node (by simp [spreads])
      rcases ordered.exists_of_mem member with ⟨fragment, found, _⟩
      rw [ordered.inlineOne_spread member found, fieldDepth]
      simp only [ofOne, found]
      exact reliable _ member fragment found measured exact

theorem measures_ofAll (ordered : table.Ordered names)
    (reliable : ExactFor table names ofFragment) :
    (selections : List Selection) → (measured : Measured) → Exact table names measured →
    SpreadsWithin names selections →
    Measures table names (fieldDepthAmong (table.inline selections)) measured
      (ofAll table ofFragment selections measured)
  | [], measured, exact, _ => ⟨rfl, exact, fun _ _ => rfl⟩
  | selection :: rest, measured, exact, within => by
      rcases spreadsWithin_cons.mp within with ⟨here, there⟩
      have first := measures_ofOne ordered reliable selection measured exact here
      have others := measures_ofAll ordered reliable rest _ first.exact there
      refine ⟨?_, others.exact, fun other outside =>
        (others.unchanged other outside).trans (first.unchanged other outside)⟩
      rw [FragmentTable.inline_cons, fieldDepthAmong, ← first.depth, ← others.depth]
      rfl

end

/-- While a fragment is measured, only fragments after it in the order are met, so the
depth that is put down for it in the meantime is not looked at. -/
theorem exactFor_ofFragment (keyed : table.Keyed) (ordered : table.Ordered names)
    {levels : Nat} (enough : names.length ≤ levels) :
    ExactFor table names (Depth.ofFragment table levels) := by
  induction ordered generalizing levels with
  | nil => simp [ExactFor]
  | @cons first rest fragment found spreads fresh ordered induction =>
      intro name member other otherFound measured exact
      have exactRest : Exact table rest measured :=
        fun name member => exact name (List.mem_cons_of_mem _ member)
      rw [List.length_cons] at enough
      rcases List.mem_cons.mp member with rfl | member
      · -- the fragment itself, whose body leads to the rest only
        rw [found, Option.some.injEq] at otherFound
        subst otherFound
        rcases Nat.exists_eq_add_of_le' (Nat.le_trans (Nat.le_add_left 1 _) enough)
          with ⟨fewer, rfl⟩
        have keyName := keyed.name_eq found
        simp only [Depth.ofFragment, keyName]
        cases known : Entries.get? name measured with
        | some depth =>
            exact ⟨exact name (by simp) fragment found depth known, exact, fun _ _ => rfl⟩
        | none =>
            have different : ∀ {other}, other ∈ rest → name ≠ other :=
              fun member same => fresh (same ▸ member)
            have exactInside : Exact table rest (Entries.insert name 0 measured) := by
              intro other member
              rw [Entries.get?_insert_of_ne (different member)]
              exact exactRest other member
            have body := measures_ofAll ordered (induction (Nat.le_of_succ_le_succ enough)) _ _
              exactInside spreads
            refine ⟨body.depth, ?_, ?_⟩
            · intro other member fragment otherFound
              rcases List.mem_cons.mp member with rfl | member
              · rw [Entries.get?_insert_self]
                intro depth same
                cases same
                rw [found, Option.some.injEq] at otherFound
                exact otherFound ▸ body.depth
              · rw [Entries.get?_insert_of_ne (different member)]
                exact body.exact other member fragment otherFound
            · intro other outside
              rw [List.mem_cons, not_or] at outside
              rw [Entries.get?_insert_of_ne (Ne.symm outside.1), body.unchanged other outside.2,
                Entries.get?_insert_of_ne (Ne.symm outside.1)]
      · have inside := induction (Nat.le_of_succ_le enough) name member other otherFound
          measured exactRest
        refine ⟨inside.depth, ?_, ?_⟩
        · intro name member
          rcases List.mem_cons.mp member with rfl | member
          · rw [inside.unchanged name fresh]
            exact exact name (by simp)
          · exact inside.exact name member
        · intro other outside
          exact inside.unchanged other fun member => outside (List.mem_cons_of_mem _ member)

end Depth

theorem SelectionSet.depth_eq {table : FragmentTable} {names : List String}
    (keyed : table.Keyed) (ordered : table.Ordered names) {set : SelectionSet}
    (within : Selection.SpreadsWithin names set.selections) :
    set.depth table = Selection.fieldDepthAmong (table.inline set.selections) :=
  (Depth.measures_ofAll ordered
    (Depth.exactFor_ofFragment keyed ordered (Nat.le_succ_of_le ordered.length_le))
    set.selections [] (by simp [Depth.Exact, Entries.get?]) within).depth

theorem SelectionSet.depth_inlined {table : FragmentTable} {names : List String}
    (keyed : table.Keyed) (ordered : table.Ordered names) {set : SelectionSet}
    (within : Selection.SpreadsWithin names set.selections) (other : FragmentTable) :
    (set.inlined table).depth other = set.depth table := by
  rw [depth_eq keyed ordered within, depth, SelectionSet.inlined,
    Depth.ofAll_of_bare _ (ordered.spreadsAmong_inline within)]

end GraphQuery
