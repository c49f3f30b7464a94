import GraphQuery.Proofs.Execution.Trace

/-! What is left to see of a trace when some of its places are hidden, with all that is below
them. -/

namespace GraphQuery

namespace Trace

mutual
/-- A trace at a path, with null in the place of everything that is hidden. -/
def masked (hidden : Path → Bool) (path : Path) : Trace → Trace
  | .null => .null
  | .failed fault => if hidden path then .null else .failed fault
  | .leaf value => if hidden path then .null else .leaf value
  | .list item items =>
      if hidden path then .null else .list item (maskedItems hidden path 0 items)
  | .object fields => if hidden path then .null else .object (maskedFields hidden path fields)

def maskedItems (hidden : Path → Bool) (path : Path) (position : Nat) : List Trace → List Trace
  | [] => []
  | trace :: rest =>
      masked hidden (path ++ [.index position]) trace ::
        maskedItems hidden path (position + 1) rest

def maskedFields (hidden : Path → Bool) (path : Path) :
    List (FieldPlace × Trace) → List (FieldPlace × Trace)
  | [] => []
  | (place, trace) :: rest =>
      (place, masked hidden (path ++ [.key place.key]) trace) :: maskedFields hidden path rest
end

variable {hidden : Path → Bool} {path : Path}

theorem masked_of_hidden (isHidden : hidden path = true) (trace : Trace) :
    trace.masked hidden path = .null := by
  cases trace <;> simp [masked, isHidden]

section Seen

variable (seen : hidden path = false)

include seen

theorem masked_failed (fault : FieldFault) :
    (Trace.failed fault).masked hidden path = .failed fault := by
  simp [masked, seen]

theorem masked_leaf (value : Json) : (Trace.leaf value).masked hidden path = .leaf value := by
  simp [masked, seen]

theorem masked_list (item : TypeRef) (items : List Trace) :
    (Trace.list item items).masked hidden path =
      .list item (maskedItems hidden path 0 items) := by
  simp [masked, seen]

theorem masked_object (fields : List (FieldPlace × Trace)) :
    (Trace.object fields).masked hidden path = .object (maskedFields hidden path fields) := by
  simp [masked, seen]

theorem eq_null_of_masked {trace : Trace} (null : trace.masked hidden path = .null) :
    trace = .null := by
  cases trace with
  | null => rfl
  | failed fault =>
      rw [masked_failed seen] at null
      cases null
  | leaf value =>
      rw [masked_leaf seen] at null
      cases null
  | list item items =>
      rw [masked_list seen] at null
      cases null
  | object fields =>
      rw [masked_object seen] at null
      cases null

end Seen

mutual
theorem masked_of_seen : ∀ (trace : Trace) {path : Path},
    (∀ below, hidden (path ++ below) = false) → trace.masked hidden path = trace
  | .null, _, _ => rfl
  | .failed fault, path, seen => masked_failed (by simpa using seen []) fault
  | .leaf value, path, seen => masked_leaf (by simpa using seen []) value
  | .list item items, path, seen => by
      rw [masked_list (by simpa using seen []), maskedItems_of_seen items seen]
  | .object fields, path, seen => by
      rw [masked_object (by simpa using seen []), maskedFields_of_seen fields seen]

theorem maskedItems_of_seen : ∀ (items : List Trace) {path : Path} {position : Nat},
    (∀ below, hidden (path ++ below) = false) → maskedItems hidden path position items = items
  | [], _, _, _ => rfl
  | trace :: rest, path, position, seen => by
      have first : ∀ below, hidden ((path ++ [.index position]) ++ below) = false := by
        intro below
        rw [List.append_assoc]
        exact seen _
      rw [maskedItems, masked_of_seen trace first, maskedItems_of_seen rest seen]

theorem maskedFields_of_seen : ∀ (fields : List (FieldPlace × Trace)) {path : Path},
    (∀ below, hidden (path ++ below) = false) → maskedFields hidden path fields = fields
  | [], _, _ => rfl
  | (place, trace) :: rest, path, seen => by
      have first : ∀ below, hidden ((path ++ [.key place.key]) ++ below) = false := by
        intro below
        rw [List.append_assoc]
        exact seen _
      rw [maskedFields, masked_of_seen trace first, maskedFields_of_seen rest seen]
end

end Trace

end GraphQuery
