import GraphQuery.Selection.Merge
import Mathlib.Data.List.Forall2
import Mathlib.Data.List.Induction

/-! What it means to merge fields once where they could be merged again and again: the
same response keys in the same order, with the same field first. -/

namespace GraphQuery

/-! ## Lists with repetitions -/

/-- The items of the first list, each with a change, and in between any number of
repetitions of what has come before. -/
inductive Repeats {α β : Type} (change : α → β) : List α → List β → Prop where
  | nil : Repeats change [] []
  | first {kept : List α} {seen : List β} (item : α) (repeats : Repeats change kept seen) :
      Repeats change (kept ++ [item]) (seen ++ [change item])
  | again {kept : List α} {seen : List β} {item : β} (known : item ∈ seen)
      (repeats : Repeats change kept seen) : Repeats change kept (seen ++ [item])

namespace Repeats

variable {α β : Type} {change : α → β} {kept : List α} {seen : List β}

theorem self (change : α → β) (items : List α) : Repeats change items (items.map change) := by
  induction items using List.reverseRecOn with
  | nil => exact .nil
  | append_singleton items item induction =>
      rw [List.map_append]
      exact induction.first item

theorem append_known (repeats : Repeats change kept seen) {items : List β}
    (known : items ⊆ seen) : Repeats change kept (seen ++ items) := by
  induction items generalizing seen with
  | nil => simpa using repeats
  | cons item rest induction =>
      have here := known List.mem_cons_self
      have there : rest ⊆ seen ++ [item] := fun other member =>
        List.mem_append_left _ (known (List.mem_cons_of_mem item member))
      simpa using induction (repeats.again here) there

theorem exists_of_mem (repeats : Repeats change kept seen) {item : β} (member : item ∈ seen) :
    ∃ source ∈ kept, change source = item := by
  induction repeats with
  | nil => cases member
  | first source _ induction =>
      rcases List.mem_append.mp member with before | single
      · rcases induction before with ⟨earlier, inside, same⟩
        exact ⟨earlier, List.mem_append_left _ inside, same⟩
      · exact ⟨source, by simp, (List.mem_singleton.mp single).symm⟩
  | again known _ induction =>
      rcases List.mem_append.mp member with before | single
      · exact induction before
      · exact induction (List.mem_singleton.mp single ▸ known)

theorem filterMap {γ δ : Type} {pick : α → Option γ} {pickChanged : β → Option δ}
    {changePicked : γ → δ} (same : ∀ item, pickChanged (change item) = (pick item).map changePicked)
    (repeats : Repeats change kept seen) :
    Repeats changePicked (kept.filterMap pick) (seen.filterMap pickChanged) := by
  induction repeats with
  | nil => exact .nil
  | first item _ induction =>
      rw [List.filterMap_append, List.filterMap_append]
      cases picked : pick item with
      | none => simpa [same, picked] using induction
      | some found => simpa [same, picked] using induction.first found
  | @again kept seen item known _ induction =>
      rw [List.filterMap_append]
      cases picked : pickChanged item with
      | none => simpa [picked] using induction
      | some found =>
          have member := List.mem_filterMap.mpr ⟨item, known, picked⟩
          simpa [picked] using induction.again member

end Repeats

/-! ## Grouping by response key -/

namespace FieldMap

def ofFields (fields : List Field) : FieldMap :=
  fields.foldl (fun merged field => merged.add field) []

theorem ofFields_append (fields : List Field) (field : Field) :
    ofFields (fields ++ [field]) = (ofFields fields).add field := by
  simp [ofFields]

theorem get?_cons (key : String) (merged : MergedField) (rest : FieldMap) :
    get? key (merged :: rest) = if merged.key = key then some merged else get? key rest := by
  by_cases same : merged.key = key <;> simp [get?, same]

def Contains (fields : FieldMap) (field : Field) : Prop :=
  ∃ merged, get? field.head.responseKey fields = some merged ∧ field ∈ merged.nodes

theorem contains_add (fields : FieldMap) (field : Field) : (fields.add field).Contains field := by
  induction fields with
  | nil => exact ⟨⟨field.head.responseKey, field, []⟩, by simp [add, get?_cons],
      by simp [MergedField.nodes]⟩
  | cons merged rest induction =>
      by_cases same : merged.key = field.head.responseKey
      · exact ⟨{ merged with others := merged.others ++ [field] }, by simp [add, same, get?_cons],
          by simp [MergedField.nodes]⟩
      · rcases induction with ⟨found, first, member⟩
        exact ⟨found, by simpa [add, same, get?_cons] using first, member⟩

theorem Contains.add {fields : FieldMap} {field : Field} (contains : fields.Contains field)
    (other : Field) : (fields.add other).Contains field := by
  rcases contains with ⟨found, first, member⟩
  induction fields with
  | nil => cases first
  | cons merged rest induction =>
      rw [get?_cons] at first
      by_cases same : merged.key = field.head.responseKey
      · rw [if_pos same, Option.some.injEq] at first
        subst first
        by_cases joins : merged.key = other.head.responseKey
        · refine ⟨{ merged with others := merged.others ++ [other] }, ?_, ?_⟩
          · simp only [FieldMap.add, if_pos joins, get?_cons, if_pos same]
          · rcases List.mem_cons.mp member with here | there
            · exact here ▸ List.mem_cons_self
            · exact List.mem_cons_of_mem _ (List.mem_append_left _ there)
        · refine ⟨merged, ?_, member⟩
          simp only [FieldMap.add, if_neg joins, get?_cons, if_pos same]
      · rw [if_neg same] at first
        by_cases joins : merged.key = other.head.responseKey
        · refine ⟨found, ?_, member⟩
          simp only [FieldMap.add, if_pos joins, get?_cons, if_neg same, first]
        · rcases induction first with ⟨later, found, member⟩
          refine ⟨later, ?_, member⟩
          simp only [FieldMap.add, if_neg joins, get?_cons, if_neg same, found]

theorem contains_ofFields {fields : List Field} {field : Field} (member : field ∈ fields) :
    (ofFields fields).Contains field := by
  induction fields using List.reverseRecOn with
  | nil => cases member
  | append_singleton fields last induction =>
      rw [ofFields_append]
      rcases List.mem_append.mp member with before | single
      · exact (induction before).add last
      · rw [List.mem_singleton.mp single]
        exact contains_add _ last

end FieldMap

/-- A merged field that another stands for: their first fields are the same but for a
change, and what follows them are the same fields up to repetitions. -/
structure MergedField.StandsFor (change : Field → Field) (merged other : MergedField) : Prop where
  key : other.key = merged.key
  first : other.first = change merged.first
  nodes : Repeats change merged.nodes other.nodes

namespace FieldMap

variable {change : Field → Field} {fields others : FieldMap}

abbrev StandFor (change : Field → Field) (fields others : FieldMap) : Prop :=
  List.Forall₂ (MergedField.StandsFor change) fields others

theorem StandFor.add (stand : StandFor change fields others) {field : Field}
    (sameKey : (change field).head.responseKey = field.head.responseKey) :
    StandFor change (fields.add field) (others.add (change field)) := by
  induction stand with
  | nil => exact .cons ⟨sameKey, rfl, .first field .nil⟩ .nil
  | @cons merged other rest followers stands stand induction =>
      have equal := stands.key
      by_cases same : merged.key = field.head.responseKey
      · simp only [FieldMap.add, equal, sameKey, if_pos same]
        exact .cons ⟨rfl, stands.first, stands.nodes.first field⟩ stand
      · simp only [FieldMap.add, equal, sameKey, if_neg same]
        exact .cons stands induction

theorem StandFor.add_again (stand : StandFor change fields others) {field : Field}
    (contains : others.Contains field) : StandFor change fields (others.add field) := by
  rcases contains with ⟨found, first, member⟩
  induction stand with
  | nil => cases first
  | @cons merged other rest followers stands stand induction =>
      rw [get?_cons] at first
      by_cases same : other.key = field.head.responseKey
      · rw [if_pos same, Option.some.injEq] at first
        subst first
        simp only [FieldMap.add, if_pos same]
        exact .cons ⟨stands.key, stands.first, stands.nodes.again member⟩ stand
      · rw [if_neg same] at first
        simp only [FieldMap.add, if_neg same]
        exact .cons stands (induction first)

/-- Repeated fields change nothing but the number of fields under a key. -/
theorem standFor_ofFields
    (sameKey : ∀ field, (change field).head.responseKey = field.head.responseKey)
    {kept seen : List Field} (repeats : Repeats change kept seen) :
    StandFor change (ofFields kept) (ofFields seen) := by
  induction repeats with
  | nil => exact .nil
  | first item _ induction =>
      rw [ofFields_append, ofFields_append]
      exact induction.add (sameKey item)
  | again known _ induction =>
      rw [ofFields_append]
      exact induction.add_again (contains_ofFields known)

end FieldMap

end GraphQuery
