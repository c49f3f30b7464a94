import GraphQuery.Proofs.Selection.Grouping
import GraphQuery.Proofs.Selection.InlinedFields
import Mathlib.Algebra.Order.Group.Multiset
import Mathlib.Data.List.Flatten

/-! Every field of a document belongs to one selection set: that of an operation, of a
field, or of a fragment. Where each of these is collected from once, no field is collected
twice. -/

namespace GraphQuery

/-! ## Fields of a document -/

namespace Selection

mutual
def ownFields : Selection → List Field
  | .leaf head => [⟨head, none⟩]
  | .branch head selections braces => [⟨head, some ⟨selections, braces⟩⟩]
  | .inline _ selections _ => ownFieldsAmong selections
  | .spread _ => []

def ownFieldsAmong : List Selection → List Field
  | [] => []
  | selection :: rest => ownFields selection ++ ownFieldsAmong rest
end

mutual
/-- The fields of a selection at any depth, but not those inside fragments that it
spreads. -/
def nodes : Selection → List Field
  | .leaf head => [⟨head, none⟩]
  | .branch head selections braces => ⟨head, some ⟨selections, braces⟩⟩ :: nodesAmong selections
  | .inline _ selections _ => nodesAmong selections
  | .spread _ => []

def nodesAmong : List Selection → List Field
  | [] => []
  | selection :: rest => nodes selection ++ nodesAmong rest
end

end Selection

theorem Selection.ownFieldsAmong_append (first second : List Selection) :
    ownFieldsAmong (first ++ second) = ownFieldsAmong first ++ ownFieldsAmong second := by
  induction first with
  | nil => rfl
  | cons selection rest induction =>
      rw [List.cons_append, ownFieldsAmong, ownFieldsAmong, induction, List.append_assoc]

def SelectionSet.ownFields (set : SelectionSet) : List Field :=
  Selection.ownFieldsAmong set.selections

def SelectionSet.nodes (set : SelectionSet) : List Field := Selection.nodesAmong set.selections

theorem SelectionSet.ownFields_flatMap (sets : List SelectionSet) :
    Selection.ownFieldsAmong (sets.flatMap selections) = sets.flatMap ownFields := by
  induction sets with
  | nil => rfl
  | cons set rest induction =>
      rw [List.flatMap_cons, List.flatMap_cons, Selection.ownFieldsAmong_append, induction]
      rfl

def Field.below (fields : List Field) : List Field :=
  (fields.filterMap Field.selectionSet).flatMap SelectionSet.ownFields

theorem Field.below_append (first second : List Field) :
    below (first ++ second) = below first ++ below second := by
  simp [below]

namespace Selection

mutual

theorem nodes_eq : (selection : Selection) →
    (nodes selection : Multiset Field) = ownFields selection + Field.below (nodes selection)
  | .leaf head => rfl
  | .branch head selections braces => by
      have first : Field.below [⟨head, some ⟨selections, braces⟩⟩] = ownFieldsAmong selections := by
        simp [Field.below, SelectionSet.ownFields]
      rw [nodes, ownFields, ← List.singleton_append, Field.below_append, first,
        ← Multiset.coe_add, ← Multiset.coe_add, ← nodesAmong_eq selections]
  | .inline head selections braces => nodesAmong_eq selections
  | .spread node => rfl

theorem nodesAmong_eq : (selections : List Selection) →
    (nodesAmong selections : Multiset Field) =
      ownFieldsAmong selections + Field.below (nodesAmong selections)
  | [] => rfl
  | selection :: rest => by
      rw [nodesAmong, ownFieldsAmong, Field.below_append, ← Multiset.coe_add, ← Multiset.coe_add,
        ← Multiset.coe_add, nodes_eq selection, nodesAmong_eq rest, add_add_add_comm]

end

end Selection

def Definition.selectionSet : Definition → SelectionSet
  | .operation definition => definition.selectionSet
  | .fragment definition => definition.selectionSet

namespace Document

/-- All fields of a document, as they follow one another in the source. -/
def nodes (document : Document) : List Field :=
  document.definitions.flatMap fun definition => definition.selectionSet.nodes

/-- The selection sets of the operations and of all fields. Those of fragments stand for what
they are spread in. -/
def ownSets (document : Document) : List SelectionSet :=
  document.operations.map OperationDefinition.selectionSet ++
    document.nodes.filterMap Field.selectionSet

/-- The fields of a document can be told apart by their places. -/
def NodesApart (document : Document) : Prop := (document.nodes.map Field.place).Nodup

variable (document : Document)

theorem nodes_eq : (document.nodes : Multiset Field) =
    document.definitions.flatMap (fun definition => definition.selectionSet.ownFields) +
      Field.below document.nodes := by
  rw [nodes]
  induction document.definitions with
  | nil => rfl
  | cons definition rest induction =>
      rw [List.flatMap_cons, List.flatMap_cons, Field.below_append, ← Multiset.coe_add,
        ← Multiset.coe_add, ← Multiset.coe_add, induction, SelectionSet.nodes,
        Selection.nodesAmong_eq, add_add_add_comm]
      rfl

theorem ownFields_definitions :
    (document.definitions.flatMap (fun definition => definition.selectionSet.ownFields) :
      Multiset Field) =
      document.operations.flatMap (fun operation => operation.selectionSet.ownFields) +
        document.fragmentDefinitions.flatMap fun fragment => fragment.selectionSet.ownFields := by
  rw [operations, fragmentDefinitions]
  induction document.definitions with
  | nil => rfl
  | cons definition rest induction =>
      rw [List.flatMap_cons, ← Multiset.coe_add, induction]
      cases definition with
      | operation operation =>
          simp only [List.filterMap_cons, List.flatMap_cons, ← Multiset.coe_add]
          exact (add_assoc _ _ _).symm
      | fragment fragment =>
          simp only [List.filterMap_cons, List.flatMap_cons, ← Multiset.coe_add]
          exact add_left_comm _ _ _

theorem nodes_eq_ownFields : (document.nodes : Multiset Field) =
    document.ownSets.flatMap SelectionSet.ownFields +
      document.fragmentDefinitions.flatMap fun fragment => fragment.selectionSet.ownFields := by
  rw [nodes_eq, ownFields_definitions, ownSets, List.flatMap_append, ← Multiset.coe_add,
    List.flatMap_map, add_right_comm]
  rfl

end Document

theorem FragmentTable.values_ofDefinitions (definitions : List FragmentDefinition) :
    (Entries.values (ofDefinitions definitions)).Sublist definitions := by
  have extend : ∀ table : FragmentTable, (Entries.values (definitions.foldl
      (fun table definition =>
        if Entries.contains definition.name.text table then table
        else Entries.insert definition.name.text definition table) table)).Sublist
      (Entries.values table ++ definitions) := by
    induction definitions with
    | nil => simp
    | cons definition rest induction =>
        intro table
        rw [List.foldl_cons]
        split
        · exact (induction table).trans
            ((List.sublist_cons_self definition rest).append_left (Entries.values table))
        · rename_i absent
          have fresh := mt Entries.contains_iff.mpr absent
          have inserted := induction (Entries.insert definition.name.text definition table)
          rw [Entries.insert_of_not_mem fresh] at inserted ⊢
          simpa [Entries.values] using inserted
  exact extend []

/-! ## What can still be collected -/

namespace FieldMap

def nodes (fields : FieldMap) : List Field := fields.flatMap MergedField.nodes

theorem nodes_add (field : Field) (fields : FieldMap) :
    ((fields.add field).nodes : Multiset Field) = fields.nodes + {field} := by
  induction fields with
  | nil => rfl
  | cons merged rest induction =>
      rw [nodes] at induction
      rw [add_cons, nodes, nodes, List.flatMap_cons, ← Multiset.coe_add]
      split
      · rw [List.flatMap_cons, MergedField.nodes, ← List.cons_append, ← Multiset.coe_add,
          ← Multiset.coe_add, add_right_comm]
        rfl
      · rw [List.flatMap_cons, ← Multiset.coe_add, induction, nodes, add_assoc]

end FieldMap

namespace Expansion

variable {ρ : Type} {expansion : Expansion ρ}

def remaining (table : FragmentTable) (expanded : List String) : List Field :=
  (table.filter fun entry => entry.1 ∉ expanded).flatMap fun entry =>
    entry.2.selectionSet.ownFields

theorem remaining_cons (name : String) (fragment : FragmentDefinition) (table : FragmentTable)
    (expanded : List String) :
    remaining ((name, fragment) :: table) expanded =
      if name ∈ expanded then remaining table expanded
      else fragment.selectionSet.ownFields ++ remaining table expanded := by
  by_cases known : name ∈ expanded <;> simp [remaining, known]

theorem remaining_expand {table : FragmentTable} (distinct : (Entries.names table).Nodup)
    {name : String} {fragment : FragmentDefinition} {expanded : List String}
    (found : Entries.get? name table = some fragment) (fresh : name ∉ expanded) :
    (remaining table expanded : Multiset Field) =
      fragment.selectionSet.ownFields + remaining table (name :: expanded) := by
  induction table with
  | nil => cases found
  | cons entry rest induction =>
      obtain ⟨key, value⟩ := entry
      rw [Entries.names, List.map_cons, List.nodup_cons] at distinct
      rw [remaining_cons, remaining_cons]
      by_cases same : key = name
      · subst same
        rw [Entries.get?, if_pos rfl, Option.some.injEq] at found
        have others : remaining rest (key :: expanded) = remaining rest expanded := by
          refine congrArg (List.flatMap _) (List.filter_congr fun entry member => ?_)
          have different : entry.1 ≠ key := fun equal =>
            distinct.1 (List.mem_map.mpr ⟨entry, member, equal⟩)
          simp [different]
        rw [if_neg fresh, if_pos List.mem_cons_self, others, found, Multiset.coe_add]
      · rw [Entries.get?, if_neg same] at found
        have rest := induction distinct.2 found
        by_cases known : key ∈ expanded
        · rw [if_pos known, if_pos (List.mem_cons_of_mem _ known), rest]
        · rw [if_neg known, if_neg (by simp [same, known]), ← Multiset.coe_add,
            ← Multiset.coe_add, rest, add_left_comm]

/-- What has been collected with the fields of some selections, and what was left to be
collected is enough for it. -/
def Spends (expansion : Expansion ρ) (before after : Collected) (fields : List Field) : Prop :=
  (after.fields.nodes : Multiset Field) + remaining expansion.fragments after.expanded ≤
    before.fields.nodes + fields + remaining expansion.fragments before.expanded

variable {before between after : Collected} {fields others : List Field}

theorem Spends.unchanged (collected : Collected) (fields : List Field) :
    expansion.Spends collected collected fields :=
  add_le_add_left (le_add_of_nonneg_right (Multiset.zero_le _)) _

theorem Spends.add (collected : Collected) (field : Field) :
    expansion.Spends collected (collected.adding [field]) [field] := by
  unfold Spends
  rw [Collected.adding, List.foldl_cons, List.foldl_nil, FieldMap.nodes_add]
  rfl

theorem Spends.trans (first : expansion.Spends before between fields)
    (second : expansion.Spends between after others) :
    expansion.Spends before after (fields ++ others) := by
  unfold Spends at *
  rw [← Multiset.coe_add]
  calc
    (after.fields.nodes : Multiset Field) + remaining expansion.fragments after.expanded
        ≤ between.fields.nodes + others + remaining expansion.fragments between.expanded := second
    _ = between.fields.nodes + remaining expansion.fragments between.expanded + others :=
        add_right_comm _ _ _
    _ ≤ before.fields.nodes + fields + remaining expansion.fragments before.expanded + others :=
        add_le_add_left first _
    _ = _ := by rw [add_right_comm, add_assoc (_ : Multiset Field) (_ : Multiset Field) others]

def BodySpends (expansion : Expansion ρ)
    (body : FragmentDefinition → Collected → Except SelectionFault Collected) : Prop :=
  ∀ fragment before after, body fragment before = .ok after →
    expansion.Spends before after fragment.selectionSet.ownFields

variable {entered : List String}
  {body : FragmentDefinition → Collected → Except SelectionFault Collected}

theorem Spends.expand (distinct : (Entries.names expansion.fragments).Nodup) {name : String}
    {fragment : FragmentDefinition}
    (found : Entries.get? name expansion.fragments = some fragment)
    (fresh : name ∉ before.expanded)
    (spends : expansion.Spends { before with expanded := name :: before.expanded } after
      fragment.selectionSet.ownFields) : expansion.Spends before after [] := by
  unfold Spends at *
  rw [remaining_expand distinct found fresh]
  simpa [add_assoc] using spends

open Selection

mutual

theorem spends_collectOne (distinct : (Entries.names expansion.fragments).Nodup)
    (spends : expansion.BodySpends body) :
    (selection : Selection) → {before after : Collected} →
    collectOne expansion entered body selection before = .ok after →
    expansion.Spends before after selection.ownFields
  | .leaf head, before, after, done => by
      simp only [collectOne] at done
      rcases of_ite_isIncluded done with ⟨_ | _, same⟩
      · cases same
        exact .unchanged _ _
      · cases same
        exact .add before ⟨head, none⟩
  | .branch head selections braces, before, after, done => by
      simp only [collectOne] at done
      rcases of_ite_isIncluded done with ⟨_ | _, same⟩
      · cases same
        exact .unchanged _ _
      · cases same
        exact .add before ⟨head, some ⟨selections, braces⟩⟩
  | .inline head selections braces, before, after, done => by
      simp only [collectOne] at done
      rcases of_ite_isIncluded done with ⟨included, same⟩
      split at same
      · exact spends_collectAll distinct spends selections same
      · cases same
        exact .unchanged _ _
  | .spread node, before, after, done => by
      simp only [collectOne] at done
      rcases of_ite_isIncluded done with ⟨_ | _, same⟩
      · cases same
        exact .unchanged _ _
      · simp only [if_true] at same
        split at same
        · cases same
        · rename_i fragment found
          split at same
          · cases same
            exact .unchanged _ _
          · split at same
            · cases same
            · split at same
              · cases same
                exact .unchanged _ _
              · rename_i unknown
                rw [List.contains_iff_mem] at unknown
                exact .expand distinct found unknown (spends fragment _ _ same)

/-- Nothing is collected but the fields of the selections and those of the fragments that
are expanded, each of them once. -/
theorem spends_collectAll (distinct : (Entries.names expansion.fragments).Nodup)
    (spends : expansion.BodySpends body) :
    (selections : List Selection) → {before after : Collected} →
    collectAll expansion entered body selections before = .ok after →
    expansion.Spends before after (ownFieldsAmong selections)
  | [], before, after, done => by
      cases done
      exact .unchanged _ _
  | selection :: rest, before, after, done => by
      rcases Except.exists_of_bind done with ⟨between, first, done⟩
      exact (spends_collectOne distinct spends selection first).trans
        (spends_collectAll distinct spends rest done)

end

theorem bodySpends_collectBody (distinct : (Entries.names expansion.fragments).Nodup)
    (levels : Nat) (entered : List String) :
    expansion.BodySpends (collectBody expansion levels entered) := by
  induction levels generalizing entered with
  | zero =>
      intro fragment before after done
      cases done
      exact .unchanged _ _
  | succ levels induction =>
      intro fragment before after done
      exact spends_collectAll distinct (induction _) _ done

theorem nodes_merge_le (distinct : (Entries.names expansion.fragments).Nodup)
    {sets : List SelectionSet} {fields : FieldMap} (done : expansion.merge sets = .ok fields) :
    (fields.nodes : Multiset Field) ≤
      sets.flatMap SelectionSet.ownFields +
        (Entries.values expansion.fragments).flatMap fun fragment =>
          fragment.selectionSet.ownFields := by
  rw [merge, collectSets_eq] at done
  obtain ⟨after, collected, same⟩ := Except.exists_of_bind done
  cases same
  have spends := spends_collectAll distinct (bodySpends_collectBody distinct _ _) _ collected
  have start : remaining expansion.fragments [] =
      (Entries.values expansion.fragments).flatMap fun fragment =>
        fragment.selectionSet.ownFields := by
    simp [remaining, Entries.values, List.flatMap_map]
  rw [Spends, SelectionSet.ownFields_flatMap, start] at spends
  calc
    (after.fields.nodes : Multiset Field)
        ≤ after.fields.nodes + remaining expansion.fragments after.expanded :=
          le_add_of_nonneg_right (Multiset.zero_le _)
    _ ≤ _ := spends
    _ = _ := by rw [FieldMap.nodes, List.flatMap_nil, Multiset.coe_nil, zero_add]

end Expansion

theorem flatMap_subperm {α β : Type} {items others : List α} (fewer : items.Subperm others)
    (convert : α → List β) : (items.flatMap convert).Subperm (others.flatMap convert) := by
  obtain ⟨between, same, fewer⟩ := fewer
  exact ⟨_, same.flatMap_right convert, fewer.flatMap convert⟩

namespace Document

variable {document : Document}

theorem NodesApart.nodup_places (apart : document.NodesApart) {fields : List Field}
    (few : fields.Subperm document.nodes) : (fields.map Field.place).Nodup := by
  obtain ⟨between, same, fewer⟩ := few
  exact (same.map Field.place).nodup_iff.mp (List.Nodup.sublist (fewer.map Field.place) apart)

theorem subperm_nodes_of_merge {ρ : Type} {expansion : Expansion ρ}
    (known : expansion.fragments = document.fragments) {sets : List SelectionSet}
    (own : sets.Subperm document.ownSets) {fields : FieldMap}
    (done : expansion.merge sets = .ok fields) : fields.nodes.Subperm document.nodes := by
  have keyed := FragmentTable.keyed_ofDefinitions document.fragmentDefinitions
  have bound := expansion.nodes_merge_le (known ▸ keyed.nodup) done
  rw [← Multiset.coe_le, nodes_eq_ownFields]
  refine bound.trans (add_le_add ?_ ?_)
  · exact flatMap_subperm own SelectionSet.ownFields
  · rw [known]
    exact ((FragmentTable.values_ofDefinitions _).flatMap _).subperm

end Document

end GraphQuery
