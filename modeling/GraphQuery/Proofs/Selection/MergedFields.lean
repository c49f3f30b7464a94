import GraphQuery.Proofs.Selection.Nesting
import GraphQuery.Proofs.Success
import GraphQuery.Selection.Merge

/-! What the merged fields of an object are made of. Every one of them comes from
the selections, directly or through fragments, and no response key comes twice. -/

namespace GraphQuery

/-- A field that the selections ask for at their own level, directly or through
fragments, whatever the conditions on the way. -/
inductive Selection.Offers (table : FragmentTable) : List Selection → Field → Prop where
  | leaf {head : FieldHead} {rest : List Selection} :
      Offers table (.leaf head :: rest) ⟨head, none⟩
  | branch {head : FieldHead} {selections : List Selection} {braces : Span}
      {rest : List Selection} :
      Offers table (.branch head selections braces :: rest) ⟨head, some ⟨selections, braces⟩⟩
  | inline {head : InlineHead} {selections : List Selection} {braces : Span}
      {rest : List Selection} {field : Field} (inside : Offers table selections field) :
      Offers table (.inline head selections braces :: rest) field
  | spread {node : FragmentSpread} {rest : List Selection} {fragment : FragmentDefinition}
      {field : Field} (found : Entries.get? node.name.text table = some fragment)
      (inside : Offers table fragment.selectionSet.selections field) :
      Offers table (.spread node :: rest) field
  | later {selection : Selection} {rest : List Selection} {field : Field}
      (offers : Offers table rest field) : Offers table (selection :: rest) field

theorem Selection.NestedWithin.of_offers {table : FragmentTable} {levels : Nat}
    {selections : List Selection} {field : Field}
    (nested : NestedWithin table levels selections) (offers : Offers table selections field) :
    ∃ fewer, levels = fewer + 1 ∧
      ∀ set, field.selectionSet = some set → NestedWithin table fewer set.selections := by
  induction offers with
  | leaf =>
      cases nested
      exact ⟨_, rfl, by simp⟩
  | branch =>
      cases nested with
      | branch below =>
          refine ⟨_, rfl, ?_⟩
          intro set same
          cases same
          exact below
  | inline _ induction =>
      cases nested with
      | inline inside => exact induction inside
  | spread found _ induction =>
      cases nested with
      | spread inside => exact induction (inside _ found)
  | later _ induction =>
      cases nested with
      | leaf others => exact induction others
      | branch _ others => exact induction others
      | inline _ others => exact induction others
      | spread _ others => exact induction others

namespace FieldMap

/-- Every key comes once, and its fields have that key and a property. -/
structure Holds (property : Field → Prop) (fields : FieldMap) : Prop where
  nodup : (fields.map MergedField.key).Nodup
  nodes : ∀ merged ∈ fields, ∀ node ∈ merged.nodes,
    node.head.responseKey = merged.key ∧ property node

variable {property : Field → Prop}

theorem mem_keys_add {field : Field} {fields : FieldMap} {key : String} :
    key ∈ (add field fields).map MergedField.key ↔
      key = field.head.responseKey ∨ key ∈ fields.map MergedField.key := by
  induction fields with
  | nil => simp [add]
  | cons merged rest induction =>
      by_cases same : merged.key = field.head.responseKey
      · simp [add, same]
      · simp only [add, same, if_false, List.map_cons, List.mem_cons, induction]
        exact or_left_comm

theorem Holds.add {field : Field} {fields : FieldMap} (holds : Holds property fields)
    (good : property field) : Holds property (fields.add field) := by
  induction fields with
  | nil => exact ⟨by simp [FieldMap.add], by simp [FieldMap.add, MergedField.nodes, good]⟩
  | cons merged rest induction =>
      have parts := List.nodup_cons.mp holds.nodup
      by_cases same : merged.key = field.head.responseKey
      · simp only [FieldMap.add, same, if_true]
        refine ⟨by simpa [same] using holds.nodup, ?_⟩
        intro other member node inside
        rcases List.mem_cons.mp member with rfl | member
        · have inside : node ∈ merged.nodes ∨ node = field := by
            simpa [MergedField.nodes, or_assoc] using inside
          rcases inside with inside | rfl
          · have original := holds.nodes merged (by simp) node inside
            exact ⟨original.1.trans same, original.2⟩
          · exact ⟨rfl, good⟩
        · exact holds.nodes other (by simp [member]) node inside
      · simp only [FieldMap.add, same, if_false]
        have tail := induction ⟨parts.2, fun other member =>
          holds.nodes other (List.mem_cons_of_mem _ member)⟩
        refine ⟨List.nodup_cons.mpr ⟨?_, tail.nodup⟩, ?_⟩
        · rw [mem_keys_add, not_or]
          exact ⟨same, parts.1⟩
        · intro other member node inside
          rcases List.mem_cons.mp member with rfl | member
          · exact holds.nodes other (by simp) node inside
          · exact tail.nodes other member node inside

theorem Holds.selectionSets {fields : FieldMap} {ofSet : SelectionSet → Prop}
    (holds : fields.Holds fun field => ∀ set, field.selectionSet = some set → ofSet set) :
    ∀ merged ∈ fields, ∀ set ∈ merged.selectionSets, ofSet set := by
  intro merged member set inside
  rcases List.mem_filterMap.mp inside with ⟨node, nodeMember, found⟩
  exact (holds.nodes merged member node nodeMember).2 set found

end FieldMap

namespace Expansion

open Selection

variable {ρ : Type} {expansion : Expansion ρ} {property : Field → Prop}

def AddsOnly (expansion : Expansion ρ) (property : Field → Prop)
    (body : FragmentDefinition → Collected → Except SelectionFault Collected) : Prop :=
  ∀ fragment before after, body fragment before = .ok after →
    (∀ field, Offers expansion.fragments fragment.selectionSet.selections field →
      property field) →
    before.fields.Holds property → after.fields.Holds property

variable {entered : List String}
  {body : FragmentDefinition → Collected → Except SelectionFault Collected}

theorem of_ite_isIncluded {bindings : Variables} {directives : List Directive}
    {collect : Bool → Except SelectionFault Collected} {after : Collected}
    (done : (do collect (← isIncluded bindings directives)) = .ok after) :
    ∃ included, collect included = .ok after := by
  rcases Except.exists_of_bind done with ⟨included, _, done⟩
  exact ⟨included, done⟩

mutual

theorem holds_collectOne (adds : expansion.AddsOnly property body) :
    (selection : Selection) → {before after : Collected} →
    collectOne expansion entered body selection before = .ok after →
    (∀ field, Offers expansion.fragments [selection] field → property field) →
    before.fields.Holds property → after.fields.Holds property
  | .leaf head, before, after, done, good, holds => by
      simp only [collectOne] at done
      rcases of_ite_isIncluded done with ⟨_ | _, same⟩
      · cases same
        exact holds
      · cases same
        exact holds.add (good _ .leaf)
  | .branch head selections braces, before, after, done, good, holds => by
      simp only [collectOne] at done
      rcases of_ite_isIncluded done with ⟨_ | _, same⟩
      · cases same
        exact holds
      · cases same
        exact holds.add (good _ .branch)
  | .inline head selections braces, before, after, done, good, holds => by
      simp only [collectOne] at done
      rcases of_ite_isIncluded done with ⟨included, same⟩
      split at same
      · exact holds_collectAll adds selections same
          (fun field offers => good field (.inline offers)) holds
      · cases same
        exact holds
  | .spread node, before, after, done, good, holds => by
      simp only [collectOne] at done
      rcases of_ite_isIncluded done with ⟨_ | _, same⟩
      · cases same
        exact holds
      · simp only [if_true] at same
        split at same
        · cases same
        · rename_i fragment found
          split at same
          · cases same
            exact holds
          · split at same
            · cases same
            · split at same
              · cases same
                exact holds
              · exact adds fragment _ _ same (fun field offers => good field (.spread found offers))
                  holds

theorem holds_collectAll (adds : expansion.AddsOnly property body) :
    (selections : List Selection) → {before after : Collected} →
    collectAll expansion entered body selections before = .ok after →
    (∀ field, Offers expansion.fragments selections field → property field) →
    before.fields.Holds property → after.fields.Holds property
  | [], before, after, done, good, holds => by
      cases done
      exact holds
  | selection :: rest, before, after, done, good, holds => by
      rcases Except.exists_of_bind done with ⟨between, first, done⟩
      refine holds_collectAll adds rest done (fun field offers => good field (.later offers)) ?_
      refine holds_collectOne adds selection first (fun field offers => good field ?_) holds
      cases offers with
      | leaf => exact .leaf
      | branch => exact .branch
      | inline inside => exact .inline inside
      | spread found inside => exact .spread found inside
      | later offers => cases offers

end

theorem addsOnly_collectBody (levels : Nat) (entered : List String) :
    expansion.AddsOnly property (collectBody expansion levels entered) := by
  induction levels generalizing entered with
  | zero =>
      intro fragment before after done _ holds
      cases done
      exact holds
  | succ levels induction =>
      intro fragment before after done good holds
      exact holds_collectAll (induction _) _ done good holds

theorem holds_collectSets {sets : List SelectionSet} {before after : Collected}
    (done : collectSets expansion sets before = .ok after)
    (good : ∀ set ∈ sets, ∀ field, Offers expansion.fragments set.selections field →
      property field)
    (holds : before.fields.Holds property) : after.fields.Holds property := by
  induction sets generalizing before with
  | nil =>
      cases done
      exact holds
  | cons set rest induction =>
      rcases Except.exists_of_bind done with ⟨between, first, done⟩
      exact induction done (fun other member => good other (by simp [member]))
        (holds_collectAll (addsOnly_collectBody _ _) _ first (good set (by simp)) holds)

/-- The fields that are merged have every property of the fields that the selections
offer. -/
theorem holds_merge (property : Field → Prop) {sets : List SelectionSet} {fields : FieldMap}
    (done : expansion.merge sets = .ok fields)
    (good : ∀ set ∈ sets, ∀ field, Offers expansion.fragments set.selections field →
      property field) : fields.Holds property := by
  rcases Except.exists_of_bind done with ⟨after, collected, done⟩
  cases done
  exact holds_collectSets collected good ⟨by simp, by simp⟩

theorem nodup_keys_merge {sets : List SelectionSet} {fields : FieldMap}
    (done : expansion.merge sets = .ok fields) : (fields.map MergedField.key).Nodup :=
  (holds_merge (fun _ => True) done (by simp)).nodup

end Expansion

def SelectionSet.AllWithin (table : FragmentTable) (levels : Nat) (sets : List SelectionSet) :
    Prop :=
  ∀ set ∈ sets, Selection.NestedWithin table levels set.selections

theorem Expansion.allWithin_selectionSets {ρ : Type} {expansion : Expansion ρ} {levels : Nat}
    {sets : List SelectionSet} {fields : FieldMap} (done : expansion.merge sets = .ok fields)
    (within : SelectionSet.AllWithin expansion.fragments levels sets) {merged : MergedField}
    (member : merged ∈ fields) :
    ∃ fewer, levels = fewer + 1 ∧
      SelectionSet.AllWithin expansion.fragments fewer merged.selectionSets := by
  have holds := holds_merge (fun field => ∃ fewer, levels = fewer + 1 ∧
      ∀ set, field.selectionSet = some set →
        Selection.NestedWithin expansion.fragments fewer set.selections)
    done fun set member field offers => (within set member).of_offers offers
  rcases (holds.nodes merged member merged.first (by simp [MergedField.nodes])).2
    with ⟨fewer, rfl, _⟩
  refine ⟨fewer, rfl, ?_⟩
  intro set inside
  rcases List.mem_filterMap.mp inside with ⟨node, nodeMember, found⟩
  rcases (holds.nodes merged member node nodeMember).2 with ⟨_, same, nested⟩
  cases same
  exact nested set found

end GraphQuery
