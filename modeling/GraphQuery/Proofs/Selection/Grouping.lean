import GraphQuery.Proofs.Selection.MergedFields
import GraphQuery.Proofs.Selection.Repetition

/-! Fields that are put together under their keys are grouped by key: the keys stand in
the order in which they first appear, and the fields of each key in their own order. -/

namespace GraphQuery

/-! ## Lists with repetitions -/

namespace Repeats

variable {α β : Type} {kept seen : List α}

theorem mem_iff (repeats : Repeats id kept seen) {item : α} : item ∈ seen ↔ item ∈ kept := by
  induction repeats with
  | nil => rfl
  | first last _ induction => simp only [List.mem_append, induction, id]
  | @again kept seen last known _ induction =>
      rw [List.mem_append, List.mem_singleton, ← induction]
      exact or_iff_left_of_imp fun same => same ▸ known

theorem map (convert : α → β) (repeats : Repeats id kept seen) :
    Repeats id (kept.map convert) (seen.map convert) := by
  have mapped : Repeats id (kept.filterMap (some ∘ convert)) (seen.filterMap (some ∘ convert)) :=
    repeats.filterMap fun _ => rfl
  simpa using mapped

theorem filter (keep : α → Bool) (repeats : Repeats id kept seen) :
    Repeats id (kept.filter keep) (seen.filter keep) := by
  have filtered : Repeats id (kept.filterMap (Option.guard keep))
      (seen.filterMap (Option.guard keep)) :=
    repeats.filterMap fun item => by simp
  simpa using filtered

end Repeats

/-! ## Items without repetitions -/

section Firsts

variable {α β : Type} [DecidableEq β]

/-- The items whose label does not come before. -/
def firstsBy (label : α → β) : List α → List α
  | [] => []
  | item :: rest => item :: (firstsBy label rest).filter fun other => label other ≠ label item

variable {label : α → β}

theorem firstsBy_concat (items : List α) (item : α) :
    firstsBy label (items ++ [item]) =
      if label item ∈ items.map label then firstsBy label items
      else firstsBy label items ++ [item] := by
  induction items with
  | nil => rfl
  | cons first rest induction =>
      rw [List.cons_append, firstsBy, firstsBy, induction, List.map_cons]
      by_cases here : label item = label first
      · rw [if_pos (List.mem_cons.mpr (.inl here))]
        split <;> simp [here]
      · simp only [List.mem_cons, here, false_or]
        split <;> simp [here]

theorem mem_firstsBy_id {items : List β} {item : β} :
    item ∈ firstsBy id items ↔ item ∈ items := by
  induction items using List.reverseRecOn with
  | nil => rfl
  | append_singleton items last induction =>
      rw [firstsBy_concat, List.map_id, List.mem_append, List.mem_singleton]
      split
      next known =>
        rw [induction]
        exact (or_iff_left_of_imp fun same => same ▸ known).symm
      next fresh => rw [List.mem_append, List.mem_singleton, induction]

theorem firstsBy_of_nodup {items : List α} (distinct : (items.map label).Nodup) :
    firstsBy label items = items := by
  induction items using List.reverseRecOn with
  | nil => rfl
  | append_singleton items item induction =>
      rw [List.map_append, List.nodup_append] at distinct
      have fresh : label item ∉ items.map label := fun member =>
        distinct.2.2 _ member (label item) (by simp) rfl
      rw [firstsBy_concat, if_neg fresh, induction distinct.1]

theorem Repeats.firstsBy_eq {kept seen : List α} (repeats : Repeats id kept seen) :
    firstsBy label seen = firstsBy label kept := by
  induction repeats with
  | nil => rfl
  | first item repeats induction =>
      simp only [firstsBy_concat, id, List.mem_map, repeats.mem_iff, induction]
  | again known _ induction =>
      rw [firstsBy_concat, if_pos (List.mem_map_of_mem known), induction]

end Firsts

/-! ## Groups of fields -/

namespace Field

def key (field : Field) : String := field.head.responseKey

def place (field : Field) : Nat := field.head.span.start

/-- Fields under their keys, in the order in which the keys first appear. A node that comes
again under its key is dropped. -/
def grouped (fields : List Field) : List (String × List Field) :=
  (firstsBy id (fields.map key)).map fun name =>
    (name, firstsBy place (fields.filter (key · == name)))

theorem grouped_eq_of_repeats {kept seen : List Field} (repeats : Repeats id kept seen) :
    grouped seen = grouped kept := by
  simp only [grouped, (repeats.map key).firstsBy_eq, (repeats.filter _).firstsBy_eq]

end Field

namespace FieldMap

def groups (fields : FieldMap) : List (String × List Field) :=
  fields.map fun merged => (merged.key, merged.nodes)

theorem add_cons (field : Field) (merged : MergedField) (rest : FieldMap) :
    add field (merged :: rest) =
      if merged.key = field.key then { merged with others := merged.others ++ [field] } :: rest
      else merged :: rest.add field :=
  rfl

theorem keys_add (field : Field) (fields : FieldMap) :
    (fields.add field).map MergedField.key =
      if field.key ∈ fields.map MergedField.key then fields.map MergedField.key
      else fields.map MergedField.key ++ [field.key] := by
  induction fields with
  | nil => rfl
  | cons merged rest induction =>
      by_cases same : merged.key = field.key
      · simp [add_cons, same]
      · rw [add_cons, if_neg same, List.map_cons, List.map_cons, induction]
        simp only [List.mem_cons, Ne.symm same, false_or]
        split <;> rfl

theorem keys_ofFields (fields : List Field) :
    (ofFields fields).map MergedField.key = firstsBy id (fields.map Field.key) := by
  induction fields using List.reverseRecOn with
  | nil => rfl
  | append_singleton fields field induction =>
      rw [ofFields_append, keys_add, induction, List.map_append, List.map_singleton,
        firstsBy_concat, List.map_id]
      simp only [mem_firstsBy_id, id]

theorem of_mem_add {fields : FieldMap} (distinct : (fields.map MergedField.key).Nodup)
    {field : Field} {merged : MergedField} (member : merged ∈ fields.add field) :
    merged ∈ fields ∧ merged.key ≠ field.key ∨
    merged.key = field.key ∧
      ((∃ old ∈ fields, old.key = field.key ∧ merged.nodes = old.nodes ++ [field]) ∨
        field.key ∉ fields.map MergedField.key ∧ merged.nodes = [field]) := by
  induction fields with
  | nil =>
      cases List.mem_singleton.mp member
      exact .inr ⟨rfl, .inr ⟨by simp, rfl⟩⟩
  | cons first rest induction =>
      rw [List.map_cons, List.nodup_cons] at distinct
      by_cases same : first.key = field.key
      · rw [add_cons, if_pos same] at member
        rcases List.mem_cons.mp member with rfl | inside
        · exact .inr ⟨same, .inl ⟨first, List.mem_cons_self, same, rfl⟩⟩
        · refine .inl ⟨List.mem_cons_of_mem _ inside, fun equal => distinct.1 ?_⟩
          exact same.trans equal.symm ▸ List.mem_map_of_mem inside
      · rw [add_cons, if_neg same] at member
        rcases List.mem_cons.mp member with rfl | inside
        · exact .inl ⟨List.mem_cons_self, same⟩
        · rcases induction distinct.2 inside with ⟨before, different⟩ | ⟨equal, joined | alone⟩
          · exact .inl ⟨List.mem_cons_of_mem _ before, different⟩
          · obtain ⟨old, before, found⟩ := joined
            exact .inr ⟨equal, .inl ⟨old, List.mem_cons_of_mem _ before, found⟩⟩
          · refine .inr ⟨equal, .inr ⟨?_, alone.2⟩⟩
            rw [List.map_cons, List.mem_cons, not_or]
            exact ⟨Ne.symm same, alone.1⟩

theorem nodup_keys_ofFields (fields : List Field) :
    ((ofFields fields).map MergedField.key).Nodup := by
  induction fields using List.reverseRecOn with
  | nil => exact .nil
  | append_singleton fields field induction =>
      rw [ofFields_append, keys_add]
      split
      · exact induction
      · exact List.nodup_append.mpr ⟨induction, by simp, by grind⟩

theorem nodes_ofFields (fields : List Field) :
    ∀ merged ∈ ofFields fields, merged.nodes = fields.filter (Field.key · == merged.key) := by
  induction fields using List.reverseRecOn with
  | nil => nofun
  | append_singleton fields field induction =>
      intro merged member
      rw [ofFields_append] at member
      rw [List.filter_append]
      rcases of_mem_add (nodup_keys_ofFields fields) member with
        ⟨before, different⟩ | ⟨same, ⟨old, before, equal, nodes⟩ | ⟨fresh, nodes⟩⟩
      · simp [induction merged before, Ne.symm different]
      · rw [nodes, induction old before, equal, same]
        simp
      · have none : fields.filter (Field.key · == merged.key) = [] := by
          rw [keys_ofFields, mem_firstsBy_id] at fresh
          rw [List.filter_eq_nil_iff]
          intro other inside equal
          exact fresh (same ▸ beq_iff_eq.mp equal ▸ List.mem_map_of_mem inside)
        rw [nodes, none]
        simp [same]

theorem groups_ofFields {fields : List Field} (apart : (fields.map Field.place).Nodup) :
    (ofFields fields).groups = Field.grouped fields := by
  have single : ∀ name, firstsBy Field.place (fields.filter (Field.key · == name)) =
      fields.filter (Field.key · == name) := fun name =>
    firstsBy_of_nodup (apart.sublist (List.filter_sublist.map Field.place))
  simp only [Field.grouped, single, ← keys_ofFields, List.map_map]
  refine List.map_congr_left fun merged member => ?_
  rw [nodes_ofFields fields merged member]
  rfl

end FieldMap

end GraphQuery
