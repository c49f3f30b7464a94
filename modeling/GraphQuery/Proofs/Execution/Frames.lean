import GraphQuery.Proofs.Execution.ErrorPlaces
import GraphQuery.Proofs.Execution.Masking

/-! Traces with a place left open. Two traces that differ at one place only are made by
filling the same places around it. -/

namespace GraphQuery

namespace Trace

/-! ## Frames -/

/-- A list or an object of which one part is left open. No other field of the object has
the key of the open one. -/
inductive Frame where
  | item (type : TypeRef) (left right : List Trace)
  | field (place : FieldPlace) (left right : List (FieldPlace × Trace))
      (apart : ∀ field ∈ left ++ right, field.1.key ≠ place.key)

namespace Frame

def fill : Frame → Trace → Trace
  | .item type left right, trace => .list type (left ++ trace :: right)
  | .field place left right _, trace => .object (left ++ (place, trace) :: right)

def segment : Frame → PathSegment
  | .item _ left _ => .index left.length
  | .field place _ _ _ => .key place.key

def type : Frame → Option TypeRef
  | .item type _ _ => some type
  | .field place _ _ _ => place.type

@[simp] theorem child?_fill (frame : Frame) (trace : Trace) :
    (frame.fill trace).child? frame.segment = some (frame.type, trace) := by
  cases frame with
  | item type left right => simp [fill, segment, child?, Frame.type]
  | field place left right apart =>
      have missing : left.find? (fun field => field.1.key == place.key) = none := by
        apply List.find?_eq_none.mpr
        intro field member
        simpa using apart field (List.mem_append_left right member)
      simp [fill, segment, child?, Frame.type, List.find?_append, missing]

theorem exists_faults_fill (frame : Frame) :
    ∃ before after, ∀ trace, (frame.fill trace).faults = before ++ trace.faults ++ after := by
  cases frame with
  | item type left right =>
      refine ⟨itemFaults left, itemFaults right, fun trace => ?_⟩
      simp [fill, faults, itemFaults_eq_flatMap]
  | field place left right apart =>
      refine ⟨fieldFaults left, fieldFaults right, fun trace => ?_⟩
      simp [fill, faults, fieldFaults_eq_flatMap]

end Frame

/-! ## Traces that are alike but for one place -/

/-- The traces differ at most at the place of the path and below. -/
inductive AlikeBut : Path → Trace → Trace → Prop where
  | here {first second : Trace} : AlikeBut [] first second
  | same {path : Path} {trace : Trace} : AlikeBut path trace trace
  | inside (frame : Frame) {path : Path} {first second : Trace}
      (alike : AlikeBut path first second) :
      AlikeBut (frame.segment :: path) (frame.fill first) (frame.fill second)

namespace AlikeBut

variable {path : Path} {first second : Trace}

theorem eq_of_absent (alike : AlikeBut path first second) (type : Option TypeRef)
    (absent : first.at? type path = none) : first = second := by
  induction alike generalizing type with
  | here => cases absent
  | same => rfl
  | inside frame alike induction =>
      rw [Trace.at?, frame.child?_fill, Option.bind_some] at absent
      rw [induction frame.type absent]

theorem faults_beside {place above : Path} (alike : AlikeBut path first second)
    (same : place = above ++ path) (located : first.Located above)
    (alsoLocated : second.Located above) :
    first.faults.filter (fun fault => ¬ place <+: fault.path) =
      second.faults.filter (fun fault => ¬ place <+: fault.path) := by
  induction alike generalizing above with
  | here =>
      rw [List.append_nil] at same
      subst same
      rw [located.filter_faults, alsoLocated.filter_faults]
  | same => rfl
  | inside frame alike induction =>
      obtain ⟨before, after, faults⟩ := frame.exists_faults_fill
      rw [List.append_cons] at same
      have inner := induction same (located.child (frame.child?_fill _))
        (alsoLocated.child (frame.child?_fill _))
      rw [faults, faults, List.filter_append, List.filter_append, List.filter_append,
        List.filter_append, inner]

theorem nearest?_eq (alike : AlikeBut path first second) (type : Option TypeRef) :
    nearest? type first path = nearest? type second path := by
  induction alike generalizing type with
  | here => rfl
  | same => rfl
  | inside frame alike induction =>
      rw [nearest?_of_child? (frame.child?_fill _), nearest?_of_child? (frame.child?_fill _),
        induction]

end AlikeBut

/-! ## From masks to frames -/

def leadsTo (place path : Path) : Bool := decide (place <+: path)

theorem leadsTo_above (path rest : Path) (segment : PathSegment) :
    leadsTo (path ++ segment :: rest) path = false := by
  apply decide_eq_false
  intro above
  have shorter := above.length_le
  simp at shorter

theorem leadsTo_beside (path rest : Path) {segment other : PathSegment}
    (different : other ≠ segment) (below : Path) :
    leadsTo (path ++ segment :: rest) (path ++ [other] ++ below) = false := by
  apply decide_eq_false
  intro isPrefix
  rw [List.append_assoc, List.prefix_append_right_inj] at isPrefix
  exact different (List.cons_prefix_cons.mp isPrefix).1.symm

theorem apart_of_nodup {left right : List (FieldPlace × Trace)} {place : FieldPlace}
    {trace : Trace}
    (nodup : ((left ++ (place, trace) :: right).map fun field => field.1.key).Nodup) :
    ∀ field ∈ left ++ right, field.1.key ≠ place.key := by
  intro field member same
  rw [List.map_append, List.map_cons, List.nodup_middle, List.nodup_cons, ← List.map_append]
    at nodup
  exact nodup.1 (List.mem_map.mpr ⟨field, member, same⟩)

section Beside

variable {hidden : Path → Bool} {path : Path} {segment : PathSegment}
  (beside : ∀ other, other ≠ segment → ∀ below, hidden (path ++ [other] ++ below) = false)

include beside

theorem items_of_masked {position : Nat} {items others : List Trace}
    (same : maskedItems hidden path position items = maskedItems hidden path position others) :
    items = others ∨ ∃ left first second right, items = left ++ first :: right ∧
      others = left ++ second :: right ∧ segment = .index (position + left.length) ∧
      first.masked hidden (path ++ [segment]) = second.masked hidden (path ++ [segment]) := by
  induction items generalizing position others with
  | nil =>
      cases others with
      | nil => exact .inl rfl
      | cons => simp [maskedItems] at same
  | cons item items induction =>
      cases others with
      | nil => simp [maskedItems] at same
      | cons other others =>
          simp only [maskedItems, List.cons.injEq] at same
          obtain ⟨heads, tails⟩ := same
          by_cases here : segment = .index position
          · have equal : items = others := by
              rcases induction tails with equal | ⟨left, _, _, _, _, _, later, _⟩
              · exact equal
              · rw [here, PathSegment.index.injEq] at later
                omega
            rw [← here] at heads
            exact .inr ⟨[], item, other, items, rfl, by rw [equal]; rfl, by simpa using here, heads⟩
          · have seen := beside _ (Ne.symm here)
            rw [masked_of_seen item seen, masked_of_seen other seen] at heads
            subst heads
            rcases induction tails with rfl | ⟨left, first, second, right, rfl, rfl, there, masked⟩
            · exact .inl rfl
            · refine .inr ⟨item :: left, first, second, right, rfl, rfl, ?_, masked⟩
              rw [there, List.length_cons]
              congr 1
              omega

theorem fields_of_masked {fields others : List (FieldPlace × Trace)}
    (nodup : (fields.map fun field => field.1.key).Nodup)
    (same : maskedFields hidden path fields = maskedFields hidden path others) :
    fields = others ∨ ∃ left place first second right, fields = left ++ (place, first) :: right ∧
      others = left ++ (place, second) :: right ∧ segment = .key place.key ∧
      first.masked hidden (path ++ [segment]) = second.masked hidden (path ++ [segment]) := by
  induction fields generalizing others with
  | nil =>
      cases others with
      | nil => exact .inl rfl
      | cons => simp [maskedFields] at same
  | cons field fields induction =>
      cases others with
      | nil => simp [maskedFields] at same
      | cons other others =>
          obtain ⟨place, first⟩ := field
          obtain ⟨otherPlace, second⟩ := other
          simp only [maskedFields, List.cons.injEq, Prod.mk.injEq] at same
          obtain ⟨⟨rfl, heads⟩, tails⟩ := same
          have parts := List.nodup_cons.mp nodup
          by_cases here : segment = .key place.key
          · have equal : fields = others := by
              rcases induction parts.2 tails with
                equal | ⟨left, later, _, _, right, rfl, _, there, _⟩
              · exact equal
              · rw [here, PathSegment.key.injEq] at there
                exact absurd (by simp [there]) parts.1
            rw [← here] at heads
            exact .inr ⟨[], place, first, second, fields, rfl, by rw [equal]; rfl, here, heads⟩
          · have seen := beside _ (Ne.symm here)
            rw [masked_of_seen first seen, masked_of_seen second seen] at heads
            subst heads
            rcases induction parts.2 tails with
              rfl | ⟨left, later, one, two, right, rfl, rfl, there, masked⟩
            · exact .inl rfl
            · exact .inr ⟨(place, first) :: left, later, one, two, right, rfl, rfl, there, masked⟩

/-- Traces of which only one part is hidden are the same or have the same frame around it. -/
theorem frame_of_masked (seen : hidden path = false) {first second : Trace}
    (distinct : first.Distinct)
    (same : first.masked hidden path = second.masked hidden path) :
    first = second ∨ ∃ (frame : Frame) (one two : Trace), first = frame.fill one ∧
      second = frame.fill two ∧ segment = frame.segment ∧
      one.masked hidden (path ++ [segment]) = two.masked hidden (path ++ [segment]) := by
  cases first with
  | null => exact .inl (eq_null_of_masked seen same.symm).symm
  | failed fault =>
      cases second with
      | failed other =>
          rw [masked_failed seen, masked_failed seen] at same
          exact .inl same
      | _ => simp [masked, seen] at same
  | leaf value =>
      cases second with
      | leaf other =>
          rw [masked_leaf seen, masked_leaf seen] at same
          exact .inl same
      | _ => simp [masked, seen] at same
  | list item items =>
      cases second with
      | list other others =>
          rw [masked_list seen, masked_list seen] at same
          obtain ⟨rfl, parts⟩ := Trace.list.inj same
          rcases items_of_masked beside parts with
            rfl | ⟨left, one, two, right, rfl, rfl, there, masked⟩
          · exact .inl rfl
          · rw [Nat.zero_add] at there
            exact .inr ⟨.item item left right, one, two, rfl, rfl, there, masked⟩
      | _ => simp [masked, seen] at same
  | object fields =>
      cases second with
      | object others =>
          rw [masked_object seen, masked_object seen] at same
          have nodup : (fields.map fun field => field.1.key).Nodup := by
            cases distinct with
            | object nodup => exact nodup
          rcases fields_of_masked beside nodup (Trace.object.inj same) with
            rfl | ⟨left, place, one, two, right, rfl, rfl, there, masked⟩
          · exact .inl rfl
          · exact .inr ⟨.field place left right (apart_of_nodup nodup), one, two, rfl, rfl, there,
              masked⟩
      | _ => simp [masked, seen] at same

end Beside

theorem alikeBut_of_masked {path rest : Path} {first second : Trace} (distinct : first.Distinct)
    (same : first.masked (leadsTo (path ++ rest)) path =
      second.masked (leadsTo (path ++ rest)) path) : AlikeBut rest first second := by
  induction rest generalizing path first second with
  | nil => exact .here
  | cons segment rest induction =>
      have seen := leadsTo_above path rest segment
      have beside : ∀ other, other ≠ segment → ∀ below,
          leadsTo (path ++ segment :: rest) (path ++ [other] ++ below) = false :=
        fun _ => leadsTo_beside path rest
      rcases frame_of_masked beside seen distinct same with
        rfl | ⟨frame, one, two, rfl, rfl, there, masked⟩
      · exact .same
      · subst there
        rw [List.append_cons path _ rest] at masked
        exact .inside frame (induction (distinct.child (frame.child?_fill one)) masked)

end Trace

end GraphQuery
