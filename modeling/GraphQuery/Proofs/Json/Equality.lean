import GraphQuery.Json
import Mathlib.Data.List.Forall2
import Mathlib.Data.List.Nodup
import Mathlib.Data.List.Perm.Subperm

/-! Equality of values is an equivalence. The entries of objects count as sets: each has a
name of its own, and is looked up by that name. -/

namespace GraphQuery

theorem Binary64.sameValue_symm {first second : Binary64} (same : first.sameValue second = true) :
    second.sameValue first = true := by
  simp only [sameValue, Bool.or_eq_true, Bool.and_eq_true, decide_eq_true_eq] at same ⊢
  exact same.imp And.symm Eq.symm

theorem Binary64.sameValue_trans {first second third : Binary64}
    (same : first.sameValue second = true) (next : second.sameValue third = true) :
    first.sameValue third = true := by
  simp only [sameValue, Bool.or_eq_true, Bool.and_eq_true, decide_eq_true_eq] at same next ⊢
  rcases same with ⟨zero, otherZero⟩ | rfl
  · rcases next with ⟨_, lastZero⟩ | rfl
    · exact .inl ⟨zero, lastZero⟩
    · exact .inl ⟨zero, otherZero⟩
  · exact next

namespace Json

/-- No object in a value names an entry twice. -/
inductive Keyed : Json → Prop where
  | null : Keyed .null
  | boolean (value : Bool) : Keyed (.boolean value)
  | integer (value : Int) : Keyed (.integer value)
  | float (value : Binary64) : Keyed (.float value)
  | string (value : String) : Keyed (.string value)
  | array {items : List Json} (all : ∀ item ∈ items, Keyed item) : Keyed (.array items)
  | object {entries : List (String × Json)} (distinct : (Entries.names entries).Nodup)
      (all : ∀ entry ∈ entries, Keyed entry.2) : Keyed (.object entries)

/-! ## Lists and objects -/

theorem sameItems_cons (left right : Json) (lefts rights : List Json) :
    sameItems (left :: lefts) (right :: rights) =
      (left.sameValue right && sameItems lefts rights) :=
  rfl

theorem sameItems_iff {lefts rights : List Json} :
    sameItems lefts rights = true ↔
      List.Forall₂ (fun left right => left.sameValue right = true) lefts rights := by
  induction lefts generalizing rights with
  | nil =>
      cases rights with
      | nil => exact ⟨fun _ => .nil, fun _ => rfl⟩
      | cons right rights => exact ⟨nofun, nofun⟩
  | cons left lefts induction =>
      cases rights with
      | nil => exact ⟨nofun, nofun⟩
      | cons right rights =>
          rw [sameItems_cons, Bool.and_eq_true, induction, List.forall₂_cons]

theorem entriesWithin_cons (name : String) (left : Json) (lefts rights : List (String × Json)) :
    entriesWithin ((name, left) :: lefts) rights =
      ((match Entries.get? name rights with
        | some right => left.sameValue right
        | none => false) && entriesWithin lefts rights) :=
  rfl

theorem entriesWithin_iff {lefts rights : List (String × Json)} :
    entriesWithin lefts rights = true ↔ ∀ entry ∈ lefts, ∃ right,
      Entries.get? entry.1 rights = some right ∧ entry.2.sameValue right = true := by
  induction lefts with
  | nil => exact ⟨fun _ entry member => absurd member List.not_mem_nil, fun _ => rfl⟩
  | cons entry lefts induction =>
      obtain ⟨name, left⟩ := entry
      rw [entriesWithin_cons, Bool.and_eq_true, induction, List.forall_mem_cons]
      refine and_congr_left' ?_
      cases Entries.get? name rights <;> simp

/-! ## What is equal to a value of one form -/

inductive Plain : Json → Prop where
  | null : Plain .null
  | boolean (value : Bool) : Plain (.boolean value)
  | integer (value : Int) : Plain (.integer value)
  | string (value : String) : Plain (.string value)

section Inversion

variable {other : Json}

theorem Plain.eq_of_sameValue {value : Json} (plain : value.Plain)
    (same : value.sameValue other = true) : value = other := by
  cases plain with
  | null =>
      cases other with
      | null => rfl
      | _ => cases same
  | boolean value =>
      cases other with
      | boolean other => exact congrArg Json.boolean (beq_iff_eq.mp same)
      | _ => cases same
  | integer value =>
      cases other with
      | integer other => exact congrArg Json.integer (beq_iff_eq.mp same)
      | _ => cases same
  | string value =>
      cases other with
      | string other => exact congrArg Json.string (beq_iff_eq.mp same)
      | _ => cases same

theorem sameValue_float_iff {value : Binary64} :
    (float value).sameValue other = true ↔
      ∃ number, other = .float number ∧ value.sameValue number = true := by
  constructor
  · intro same
    cases other with
    | float number => exact ⟨number, rfl, same⟩
    | _ => cases same
  · rintro ⟨number, rfl, same⟩
    exact same

theorem sameValue_array_iff {items : List Json} :
    (array items).sameValue other = true ↔ ∃ others, other = .array others ∧
      List.Forall₂ (fun left right => left.sameValue right = true) items others := by
  constructor
  · intro same
    cases other with
    | array others => exact ⟨others, rfl, sameItems_iff.mp same⟩
    | _ => cases same
  · rintro ⟨others, rfl, alike⟩
    exact sameItems_iff.mpr alike

theorem sameValue_object_iff {entries : List (String × Json)} :
    (object entries).sameValue other = true ↔ ∃ others, other = .object others ∧
      entries.length = others.length ∧ ∀ entry ∈ entries, ∃ right,
        Entries.get? entry.1 others = some right ∧ entry.2.sameValue right = true := by
  constructor
  · intro same
    cases other with
    | object others =>
        obtain ⟨size, within⟩ := Bool.and_eq_true_iff.mp same
        exact ⟨others, rfl, beq_iff_eq.mp size, entriesWithin_iff.mp within⟩
    | _ => cases same
  · rintro ⟨others, rfl, size, within⟩
    exact Bool.and_eq_true_iff.mpr ⟨beq_iff_eq.mpr size, entriesWithin_iff.mpr within⟩

end Inversion

/-! ## Equivalence -/

theorem Keyed.sameValue_refl {value : Json} (keyed : value.Keyed) :
    value.sameValue value = true := by
  induction keyed with
  | null => rfl
  | boolean value => exact beq_self_eq_true value
  | integer value => exact beq_self_eq_true value
  | string value => exact beq_self_eq_true value
  | float value => exact value.sameValue_refl
  | array _ induction => exact sameValue_array_iff.mpr ⟨_, rfl, List.forall₂_same.mpr induction⟩
  | object distinct _ induction =>
      refine sameValue_object_iff.mpr ⟨_, rfl, rfl, fun entry member => ?_⟩
      exact ⟨entry.2, Entries.get?_of_mem distinct member, induction entry member⟩

theorem names_subset_of_length_eq {entries others : List (String × Json)}
    (distinct : (Entries.names entries).Nodup) (size : entries.length = others.length)
    (subset : Entries.names entries ⊆ Entries.names others) :
    Entries.names others ⊆ Entries.names entries := by
  have enough : (Entries.names others).length ≤ (Entries.names entries).length := by
    simp [Entries.length_names, size]
  exact ((List.subperm_of_subset distinct subset).perm_of_length_le enough).symm.subset

theorem Keyed.sameValue_symm {first second : Json} (keyed : first.Keyed)
    (keyedOther : second.Keyed) (same : first.sameValue second = true) :
    second.sameValue first = true := by
  induction keyed generalizing second with
  | null =>
      obtain rfl := Plain.null.eq_of_sameValue same
      exact same
  | boolean value =>
      obtain rfl := (Plain.boolean value).eq_of_sameValue same
      exact same
  | integer value =>
      obtain rfl := (Plain.integer value).eq_of_sameValue same
      exact same
  | string value =>
      obtain rfl := (Plain.string value).eq_of_sameValue same
      exact same
  | float value =>
      obtain ⟨number, rfl, alike⟩ := sameValue_float_iff.mp same
      exact sameValue_float_iff.mpr ⟨value, rfl, Binary64.sameValue_symm alike⟩
  | @array items all induction =>
      obtain ⟨others, rfl, alike⟩ := sameValue_array_iff.mp same
      cases keyedOther with
      | array allOthers =>
          refine sameValue_array_iff.mpr ⟨items, rfl, ?_⟩
          clear same
          induction alike with
          | nil => exact .nil
          | cons head _ tail =>
              rw [List.forall_mem_cons] at all induction allOthers
              exact .cons (induction.1 allOthers.1 head) (tail all.2 induction.2 allOthers.2)
  | @object entries distinct _ induction =>
      obtain ⟨others, rfl, size, within⟩ := sameValue_object_iff.mp same
      cases keyedOther with
      | object distinctOthers allOthers =>
          have subset : Entries.names entries ⊆ Entries.names others := by
            intro name member
            obtain ⟨entry, inside, rfl⟩ := List.mem_map.mp member
            obtain ⟨other, found, _⟩ := within entry inside
            exact Entries.mem_names_of_get? found
          refine sameValue_object_iff.mpr ⟨entries, rfl, size.symm, fun other member => ?_⟩
          obtain ⟨value, found⟩ := Entries.exists_get?_of_mem_names
            (names_subset_of_length_eq distinct size subset (List.mem_map_of_mem member))
          have inside := Entries.mem_of_get? found
          obtain ⟨again, foundAgain, alike⟩ := within _ inside
          rw [Entries.get?_of_mem distinctOthers member, Option.some.injEq] at foundAgain
          exact ⟨value, found,
            induction _ inside (allOthers other member) (foundAgain ▸ alike)⟩

theorem Keyed.sameValue_trans {first second third : Json} (keyed : first.Keyed)
    (same : first.sameValue second = true) (next : second.sameValue third = true) :
    first.sameValue third = true := by
  induction keyed generalizing second third with
  | null =>
      obtain rfl := Plain.null.eq_of_sameValue same
      exact next
  | boolean value =>
      obtain rfl := (Plain.boolean value).eq_of_sameValue same
      exact next
  | integer value =>
      obtain rfl := (Plain.integer value).eq_of_sameValue same
      exact next
  | string value =>
      obtain rfl := (Plain.string value).eq_of_sameValue same
      exact next
  | float value =>
      obtain ⟨number, rfl, alike⟩ := sameValue_float_iff.mp same
      obtain ⟨last, rfl, alikeLast⟩ := sameValue_float_iff.mp next
      exact sameValue_float_iff.mpr ⟨last, rfl, Binary64.sameValue_trans alike alikeLast⟩
  | @array items all induction =>
      obtain ⟨others, rfl, alike⟩ := sameValue_array_iff.mp same
      obtain ⟨lasts, rfl, alikeLast⟩ := sameValue_array_iff.mp next
      refine sameValue_array_iff.mpr ⟨lasts, rfl, ?_⟩
      clear same next
      induction alike generalizing lasts with
      | nil => exact alikeLast
      | cons head _ tail =>
          rw [List.forall_mem_cons] at all induction
          cases alikeLast with
          | cons nextHead nextTail =>
              exact .cons (induction.1 head nextHead) (tail all.2 induction.2 _ nextTail)
  | object distinct _ induction =>
      obtain ⟨others, rfl, size, within⟩ := sameValue_object_iff.mp same
      obtain ⟨lasts, rfl, sizeLast, withinLast⟩ := sameValue_object_iff.mp next
      refine sameValue_object_iff.mpr
        ⟨lasts, rfl, size.trans sizeLast, fun entry member => ?_⟩
      obtain ⟨other, found, alike⟩ := within entry member
      obtain ⟨last, foundLast, alikeLast⟩ := withinLast _ (Entries.mem_of_get? found)
      exact ⟨last, foundLast, induction entry member alike alikeLast⟩

end Json

end GraphQuery
