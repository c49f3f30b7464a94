import GraphQuery.Proofs.Execution.Trace

/-! How nulls come up in a trace. A fault makes its nearest nullable place null,
unless something above becomes null as well, and nothing else does. -/

namespace GraphQuery

/-! ## Collected outcomes -/

namespace Outcome

theorem json?_eq_none_iff {outcome : Outcome} : outcome.json? = none ↔ outcome = .bubble := by
  cases outcome <;> simp [json?]

theorem mapM_json?_eq_none_iff {outcomes : List Outcome} :
    outcomes.mapM json? = none ↔ .bubble ∈ outcomes := by
  induction outcomes with
  | nil => simp
  | cons outcome rest induction =>
      cases outcome <;> cases found : rest.mapM json? <;>
        simp_all [List.mapM_cons, json?]

theorem ofItems_cases (outcomes : List Outcome) :
    (∃ items, outcomes.mapM json? = some items ∧ ofItems outcomes = .value (.array items)) ∨
      (.bubble ∈ outcomes ∧ ofItems outcomes = .bubble) := by
  cases found : outcomes.mapM json? with
  | some items => exact .inl ⟨items, rfl, by simp [ofItems, found]⟩
  | none => exact .inr ⟨mapM_json?_eq_none_iff.mp found, by simp [ofItems, found]⟩

theorem ofFields_cases (keys : List String) (outcomes : List Outcome) :
    (∃ values, outcomes.mapM json? = some values ∧
        ofFields keys outcomes = .value (.object (keys.zip values))) ∨
      (.bubble ∈ outcomes ∧ ofFields keys outcomes = .bubble) := by
  cases found : outcomes.mapM json? with
  | some values => exact .inl ⟨values, rfl, by simp [ofFields, found]⟩
  | none => exact .inr ⟨mapM_json?_eq_none_iff.mp found, by simp [ofFields, found]⟩

theorem ofItems_ne_null (outcomes : List Outcome) : ofItems outcomes ≠ .null := by
  rcases ofItems_cases outcomes with ⟨_, _, value⟩ | ⟨_, bubbles⟩
  · simp [value]
  · simp [bubbles]

theorem ofFields_ne_null (keys : List String) (outcomes : List Outcome) :
    ofFields keys outcomes ≠ .null := by
  rcases ofFields_cases keys outcomes with ⟨_, _, value⟩ | ⟨_, bubbles⟩
  · simp [value]
  · simp [bubbles]

theorem exists_of_mapM_json?_cons {outcome : Outcome} {rest : List Outcome} {values : List Json}
    (found : (outcome :: rest).mapM json? = some values) :
    ∃ value others, outcome.json? = some value ∧ rest.mapM json? = some others ∧
      values = value :: others := by
  cases first : outcome.json? with
  | none => simp [first] at found
  | some value =>
      cases collected : rest.mapM json? with
      | none => simp [first, collected] at found
      | some others =>
          simp only [List.mapM_cons, first, collected, Option.pure_def, Option.bind_eq_bind,
            Option.bind_some, Option.some.injEq] at found
          exact ⟨value, others, rfl, rfl, found.symm⟩

theorem getElem?_of_mapM_json? {outcomes : List Outcome} {items : List Json}
    (found : outcomes.mapM json? = some items) (position : Nat) :
    items[position]? = outcomes[position]?.bind json? := by
  induction outcomes generalizing items position with
  | nil =>
      cases found
      simp
  | cons outcome rest induction =>
      rcases exists_of_mapM_json?_cons found with ⟨value, others, first, collected, rfl⟩
      cases position with
      | zero => simp [first]
      | succ position => simpa using induction collected position

end Outcome

namespace Trace

/-! ## Places below -/

theorem get?_zip_fieldOutcomes {fields : List (FieldPlace × Trace)} {values : List Json}
    (found : (fieldOutcomes fields).mapM Outcome.json? = some values) (name : String) :
    Entries.get? name ((fields.map fun field => field.1.key).zip values) =
      (fields.find? fun field => field.1.key == name).bind fun field =>
        (field.2.outcome.settleAt field.1.type).json? := by
  induction fields generalizing values with
  | nil => simp [Entries.get?]
  | cons field rest induction =>
      rw [fieldOutcomes] at found
      rcases Outcome.exists_of_mapM_json?_cons found with ⟨value, others, first, collected, rfl⟩
      by_cases same : field.1.key = name
      · simp [Entries.get?, same, first]
      · simp [Entries.get?, same, induction collected]

theorem outcome_of_child? {trace child : Trace} {segment : PathSegment}
    {type : Option TypeRef} (found : trace.child? segment = some (type, child)) :
    trace.outcome = .bubble ∨ ∃ data entry, trace.outcome = .value data ∧
      (child.outcome.settleAt type).json? = some entry ∧
      ∀ rest, data.at? (segment :: rest) = entry.at? rest := by
  cases trace with
  | list item items =>
      rcases of_child?_list found with ⟨position, rfl, rfl, member⟩
      rcases Outcome.ofItems_cases (itemOutcomes item items) with
        ⟨values, collected, value⟩ | ⟨_, bubbles⟩
      · have entry := Outcome.getElem?_of_mapM_json? collected position
        rw [itemOutcomes_eq_map, List.getElem?_map, member] at entry
        cases single : (child.outcome.settleAt (some item)).json? with
        | none =>
            have bubbles : .bubble ∈ itemOutcomes item items := by
              rw [itemOutcomes_eq_map, ← Outcome.json?_eq_none_iff.mp single]
              exact List.mem_map.mpr ⟨child, List.mem_of_getElem? member, rfl⟩
            rw [Outcome.mapM_json?_eq_none_iff.mpr bubbles] at collected
            cases collected
        | some inner =>
            refine .inr ⟨_, inner, value, rfl, fun rest => ?_⟩
            simp [Json.at?, entry, single]
      · exact .inl bubbles
  | object fields =>
      rcases of_child?_object found with ⟨field, rfl, rfl, rfl, member⟩
      rcases Outcome.ofFields_cases (fields.map fun field => field.1.key)
        (fieldOutcomes fields) with ⟨values, collected, value⟩ | ⟨_, bubbles⟩
      · have entry := get?_zip_fieldOutcomes collected field.1.key
        rw [member, Option.bind_some] at entry
        cases single : (field.2.outcome.settleAt field.1.type).json? with
        | none =>
            have bubbles : .bubble ∈ fieldOutcomes fields := by
              rw [fieldOutcomes_eq_map, ← Outcome.json?_eq_none_iff.mp single]
              exact List.mem_map.mpr ⟨field, List.mem_of_find?_eq_some member, rfl⟩
            rw [Outcome.mapM_json?_eq_none_iff.mpr bubbles] at collected
            cases collected
        | some inner =>
            refine .inr ⟨_, inner, value, rfl, fun rest => ?_⟩
            simp [Json.at?, entry, single]
      · exact .inl bubbles
  | _ => simp [child?] at found

theorem child?_of_at? {trace : Trace} {data found : Json} {segment : PathSegment} {rest : Path}
    (outcome : trace.outcome = .value data) (inside : data.at? (segment :: rest) = some found) :
    trace = .leaf data ∨ ∃ type child, trace.child? segment = some (type, child) := by
  cases trace with
  | null => cases outcome
  | failed fault => cases outcome
  | leaf value =>
      cases outcome
      exact .inl rfl
  | list item items =>
      rcases Outcome.ofItems_cases (itemOutcomes item items) with
        ⟨values, collected, value⟩ | ⟨_, bubbles⟩
      · rw [Trace.outcome, value] at outcome
        cases outcome
        cases segment with
        | key name => simp [Json.at?] at inside
        | index position =>
            have entry := Outcome.getElem?_of_mapM_json? collected position
            rw [itemOutcomes_eq_map, List.getElem?_map] at entry
            cases member : items[position]? with
            | none => simp [Json.at?, entry, member] at inside
            | some child => exact .inr ⟨some item, child, by simp [child?, member]⟩
      · rw [Trace.outcome, bubbles] at outcome
        cases outcome
  | object fields =>
      rcases Outcome.ofFields_cases (fields.map fun field => field.1.key)
        (fieldOutcomes fields) with ⟨values, collected, value⟩ | ⟨_, bubbles⟩
      · rw [Trace.outcome, value] at outcome
        cases outcome
        cases segment with
        | index position => simp [Json.at?] at inside
        | key name =>
            have entry := get?_zip_fieldOutcomes collected name
            cases member : fields.find? fun field => field.1.key == name with
            | none => simp [Json.at?, entry, member] at inside
            | some field =>
                exact .inr ⟨field.1.type, field.2, by simp [child?, member]⟩
      · rw [Trace.outcome, bubbles] at outcome
        cases outcome

theorem eq_null_of_outcome {trace : Trace} (outcome : trace.outcome = .null) : trace = .null := by
  cases trace with
  | null => rfl
  | failed fault => cases outcome
  | leaf value => cases outcome
  | list item items =>
      rcases Outcome.ofItems_cases (itemOutcomes item items) with
        ⟨_, _, value⟩ | ⟨_, bubbles⟩
      · rw [Trace.outcome, value] at outcome
        cases outcome
      · rw [Trace.outcome, bubbles] at outcome
        cases outcome
  | object fields =>
      rcases Outcome.ofFields_cases (fields.map fun field => field.1.key)
        (fieldOutcomes fields) with ⟨_, _, value⟩ | ⟨_, bubbles⟩
      · rw [Trace.outcome, value] at outcome
        cases outcome
      · rw [Trace.outcome, bubbles] at outcome
        cases outcome

theorem items_of_outcome {item : TypeRef} {items : List Trace} {json : Json}
    (outcome : (list item items).outcome = .value json) :
    ∃ values, (itemOutcomes item items).mapM Outcome.json? = some values ∧
      json = .array values := by
  rw [Trace.outcome] at outcome
  rcases Outcome.ofItems_cases (itemOutcomes item items) with
    ⟨values, collected, value⟩ | ⟨_, bubbles⟩
  · rw [value] at outcome
    cases outcome
    exact ⟨values, collected, rfl⟩
  · rw [bubbles] at outcome
    cases outcome

theorem entries_of_outcome {fields : List (FieldPlace × Trace)} {json : Json}
    (outcome : (object fields).outcome = .value json) :
    ∃ values, (fieldOutcomes fields).mapM Outcome.json? = some values ∧
      json = .object ((fields.map fun field => field.1.key).zip values) := by
  rw [Trace.outcome] at outcome
  rcases Outcome.ofFields_cases (fields.map fun field => field.1.key) (fieldOutcomes fields) with
    ⟨values, collected, value⟩ | ⟨_, bubbles⟩
  · rw [value] at outcome
    cases outcome
    exact ⟨values, collected, rfl⟩
  · rw [bubbles] at outcome
    cases outcome

theorem eq_leaf_of_outcome {trace : Trace} (outcome : trace.outcome = .value .null) :
    trace = .leaf .null := by
  cases trace with
  | null => cases outcome
  | failed fault => cases outcome
  | leaf value =>
      cases outcome
      rfl
  | list item items =>
      rcases items_of_outcome outcome with ⟨_, _, same⟩
      cases same
  | object fields =>
      rcases entries_of_outcome outcome with ⟨_, _, same⟩
      cases same

/-! ## Nearest nullable places -/

def nearest? (type : Option TypeRef) (trace : Trace) : Path → Option Path
  | [] => if acceptsNull type then some [] else none
  | segment :: rest =>
      match (trace.child? segment).bind fun below => nearest? below.1 below.2 rest with
      | some deeper => some (segment :: deeper)
      | none => if acceptsNull type then some [] else none

def Accepts (type : Option TypeRef) (trace : Trace) (path : Path) : Prop :=
  ∃ found below, trace.at? type path = some (found, below) ∧ acceptsNull found = true

theorem accepts_nil {type : Option TypeRef} {trace : Trace} :
    trace.Accepts type [] ↔ acceptsNull type = true := by
  simp [Accepts, at?]

theorem accepts_cons {type childType : Option TypeRef} {trace child : Trace}
    {segment : PathSegment} {rest : Path}
    (found : trace.child? segment = some (childType, child)) :
    trace.Accepts type (segment :: rest) ↔ child.Accepts childType rest := by
  simp [Accepts, at?, found]

theorem not_accepts_cons {type : Option TypeRef} {trace : Trace} {segment : PathSegment}
    {rest : Path} (missing : trace.child? segment = none) :
    ¬ trace.Accepts type (segment :: rest) := by
  simp [Accepts, at?, missing]

theorem nearest?_of_child? {type childType : Option TypeRef} {trace child : Trace}
    {segment : PathSegment} {rest : Path}
    (found : trace.child? segment = some (childType, child)) :
    nearest? type trace (segment :: rest) =
      match nearest? childType child rest with
      | some deeper => some (segment :: deeper)
      | none => if acceptsNull type then some [] else none := by
  simp [nearest?, found]

/-- The nearest nullable place is on the path, accepts null, and none beyond it does. -/
structure Nearest (type : Option TypeRef) (trace : Trace) (path : Path)
    (nearest : Option Path) : Prop where
  found : ∀ part, nearest = some part → part <+: path ∧ trace.Accepts type part
  longest : ∀ longer, longer <+: path → trace.Accepts type longer →
    ∃ part, nearest = some part ∧ longer.length ≤ part.length

theorem nearest_self (type : Option TypeRef) (trace : Trace) (path : Path)
    (beyond : ∀ longer, longer <+: path → trace.Accepts type longer → longer = []) :
    Nearest type trace path (if acceptsNull type then some [] else none) := by
  cases accepts : acceptsNull type with
  | true =>
      refine ⟨?_, fun longer isPrefix held => ⟨[], rfl, by simp [beyond longer isPrefix held]⟩⟩
      intro part same
      cases same
      exact ⟨List.nil_prefix, accepts_nil.mpr accepts⟩
  | false =>
      refine ⟨by simp, fun longer isPrefix held => ?_⟩
      rw [beyond longer isPrefix held, accepts_nil, accepts] at held
      cases held

theorem nearest_nearest? (type : Option TypeRef) (trace : Trace) (path : Path) :
    Nearest type trace path (nearest? type trace path) := by
  induction path generalizing type trace with
  | nil => exact nearest_self type trace [] fun longer isPrefix _ => List.prefix_nil.mp isPrefix
  | cons segment rest induction =>
      cases found : trace.child? segment with
      | none =>
          have same : nearest? type trace (segment :: rest) =
              if acceptsNull type then some [] else none := by simp [nearest?, found]
          rw [same]
          refine nearest_self type trace _ fun longer isPrefix held => ?_
          rcases List.prefix_cons_iff.mp isPrefix with rfl | ⟨more, rfl, _⟩
          · rfl
          · exact absurd held (not_accepts_cons found)
      | some below =>
          rcases below with ⟨childType, child⟩
          have inner := induction childType child
          rw [nearest?_of_child? found]
          cases deeper : nearest? childType child rest with
          | some part =>
              refine ⟨?_, fun longer isPrefix held => ⟨_, rfl, ?_⟩⟩
              · intro other same
                cases same
                rcases inner.found part deeper with ⟨isPrefix, held⟩
                exact ⟨List.cons_prefix_cons.mpr ⟨rfl, isPrefix⟩, (accepts_cons found).mpr held⟩
              · rcases List.prefix_cons_iff.mp isPrefix with rfl | ⟨more, rfl, inside⟩
                · simp
                · rcases inner.longest more inside ((accepts_cons found).mp held) with
                    ⟨other, same, bound⟩
                  rw [deeper] at same
                  cases same
                  simpa using bound
          | none =>
              refine nearest_self type trace _ fun longer isPrefix held => ?_
              rcases List.prefix_cons_iff.mp isPrefix with rfl | ⟨more, rfl, inside⟩
              · rfl
              · rcases inner.longest more inside ((accepts_cons found).mp held) with
                  ⟨other, same, _⟩
                rw [deeper] at same
                cases same

theorem isNearestNullable_of_nearest? {trace : Trace} {path nearest : Path}
    (found : nearest? none trace path = some nearest) :
    trace.IsNearestNullable path nearest := by
  have spec := nearest_nearest? none trace path
  rcases spec.found nearest found with ⟨isPrefix, accepts⟩
  refine ⟨isPrefix, accepts, fun longer isPrefix held => ?_⟩
  rcases spec.longest longer isPrefix held with ⟨part, same, bound⟩
  rw [found] at same
  cases same
  exact bound

/-! ## Faults and nulls -/

/-- A fault brings a null to its nearest nullable place or further up, and bubbles if
there is none. -/
theorem FailsAt.brings_null {trace : Trace} {path : Path} {fault : FieldFault}
    (fails : FailsAt trace path fault) (type : Option TypeRef) :
    trace.outcome.settleAt type = .bubble ∨
      ∃ nearest data upper, nearest? type trace path = some nearest ∧
        (trace.outcome.settleAt type).json? = some data ∧ upper <+: nearest ∧
        data.at? upper = some .null := by
  induction fails generalizing type with
  | here =>
      cases accepts : acceptsNull type with
      | false => exact .inl (by simp [outcome, Outcome.settleAt, accepts])
      | true =>
          exact .inr ⟨[], .null, [], by simp [nearest?, accepts],
            by simp [outcome, Outcome.settleAt, accepts, Outcome.json?], List.prefix_rfl, by simp⟩
  | @deeper trace child segment childType path fault found _ induction =>
      rcases outcome_of_child? found with bubbles | ⟨data, entry, value, single, inside⟩
      · -- something below bubbles, so the place becomes null unless it refuses that
        cases accepts : acceptsNull type with
        | false => exact .inl (by simp [bubbles, Outcome.settleAt, accepts])
        | true =>
            rcases (nearest_nearest? type trace (segment :: path)).longest [] List.nil_prefix
              (accepts_nil.mpr accepts) with ⟨nearest, same, _⟩
            exact .inr ⟨nearest, .null, [], same,
              by simp [bubbles, Outcome.settleAt, accepts, Outcome.json?], List.nil_prefix, by simp⟩
      · rcases induction childType with
          bubbles | ⟨nearest, item, upper, same, settled, isPrefix, null⟩
        · rw [bubbles] at single
          cases single
        · rw [settled, Option.some.injEq] at single
          subst single
          refine .inr ⟨segment :: nearest, data, segment :: upper, ?_, ?_, ?_, ?_⟩
          · rw [nearest?_of_child? found, same]
          · simp [value, Outcome.settleAt, Outcome.json?]
          · exact List.cons_prefix_cons.mpr ⟨rfl, isPrefix⟩
          · rw [inside, null]

/-- No object has two fields of one key. -/
inductive Distinct : Trace → Prop where
  | null : Distinct .null
  | failed {fault : FieldFault} : Distinct (.failed fault)
  | leaf {value : Json} : Distinct (.leaf value)
  | list {item : TypeRef} {items : List Trace} (all : ∀ trace ∈ items, Distinct trace) :
      Distinct (.list item items)
  | object {fields : List (FieldPlace × Trace)}
      (nodup : (fields.map fun field => field.1.key).Nodup)
      (all : ∀ field ∈ fields, Distinct field.2) : Distinct (.object fields)

theorem find?_key_of_mem {fields : List (FieldPlace × Trace)}
    (nodup : (fields.map fun field => field.1.key).Nodup) {field : FieldPlace × Trace}
    (member : field ∈ fields) :
    fields.find? (fun other => other.1.key == field.1.key) = some field := by
  induction fields with
  | nil => simp at member
  | cons first rest induction =>
      have parts := List.nodup_cons.mp nodup
      rcases List.mem_cons.mp member with rfl | member
      · simp
      · have different : first.1.key ≠ field.1.key := by
          intro same
          exact parts.1 (List.mem_map.mpr ⟨field, member, same.symm⟩)
        rw [List.find?_cons_of_neg (by simpa using different)]
        exact induction parts.2 member

theorem child?_object_of_mem {fields : List (FieldPlace × Trace)}
    (nodup : (fields.map fun field => field.1.key).Nodup) {field : FieldPlace × Trace}
    (member : field ∈ fields) :
    (object fields).child? (.key field.1.key) = some (field.1.type, field.2) := by
  simp [child?, find?_key_of_mem nodup member]

theorem child?_list_of_getElem? {item : TypeRef} {items : List Trace} {position : Nat}
    {child : Trace} (found : items[position]? = some child) :
    (list item items).child? (.index position) = some (some item, child) := by
  simp [child?, found]

theorem Distinct.child {trace child : Trace} (distinct : trace.Distinct) {segment : PathSegment}
    {type : Option TypeRef} (found : trace.child? segment = some (type, child)) :
    child.Distinct := by
  cases distinct with
  | list all =>
      rcases of_child?_list found with ⟨_, _, _, member⟩
      exact all child (List.mem_of_getElem? member)
  | object _ all =>
      rcases of_child?_object found with ⟨field, _, _, rfl, member⟩
      exact all field (List.mem_of_find?_eq_some member)
  | _ => simp [child?] at found

/-- What bubbles, bubbles because of a fault with no nullable place on the way. -/
theorem Distinct.fails_of_bubble {trace : Trace} (distinct : trace.Distinct)
    (bubbles : trace.outcome = .bubble) : ∃ path fault, FailsAt trace path fault ∧
      ∀ type, nearest? type trace path = if acceptsNull type then some [] else none := by
  -- a child that bubbles refuses null, and has such a fault itself
  have lift : ∀ {trace child : Trace} {segment : PathSegment} {childType : Option TypeRef},
      trace.child? segment = some (childType, child) →
      child.outcome.settleAt childType = .bubble →
      (child.outcome = .bubble → ∃ path fault, FailsAt child path fault ∧
        ∀ type, nearest? type child path = if acceptsNull type then some [] else none) →
      ∃ path fault, FailsAt trace path fault ∧
        ∀ type, nearest? type trace path = if acceptsNull type then some [] else none := by
    intro trace child segment childType found settled below
    have refuses : child.outcome = .bubble ∧ acceptsNull childType = false := by
      cases outcome : child.outcome with
      | bubble =>
          cases accepts : acceptsNull childType with
          | false => exact ⟨rfl, rfl⟩
          | true => simp [outcome, Outcome.settleAt, accepts] at settled
      | _ => simp [outcome, Outcome.settleAt] at settled
    rcases below refuses.1 with ⟨path, fault, fails, nearest⟩
    refine ⟨segment :: path, fault, .deeper found fails, fun type => ?_⟩
    rw [nearest?_of_child? found, nearest childType, refuses.2]
    rfl
  induction distinct with
  | null => cases bubbles
  | @failed fault => exact ⟨[], fault, .here, fun type => rfl⟩
  | leaf => cases bubbles
  | @list item items _ induction =>
      rcases Outcome.ofItems_cases (itemOutcomes item items) with ⟨_, _, value⟩ | ⟨member, _⟩
      · rw [Trace.outcome, value] at bubbles
        cases bubbles
      · rw [itemOutcomes_eq_map] at member
        rcases List.mem_map.mp member with ⟨child, childMember, settled⟩
        rcases List.getElem?_of_mem childMember with ⟨position, found⟩
        exact lift (child?_list_of_getElem? found) settled (induction child childMember)
  | @object fields nodup _ induction =>
      rcases Outcome.ofFields_cases (fields.map fun field => field.1.key) (fieldOutcomes fields)
        with ⟨_, _, value⟩ | ⟨member, _⟩
      · rw [Trace.outcome, value] at bubbles
        cases bubbles
      · rw [fieldOutcomes_eq_map] at member
        rcases List.mem_map.mp member with ⟨field, fieldMember, settled⟩
        exact lift (child?_object_of_mem nodup fieldMember) settled (induction field fieldMember)

/-- Every null of a value was given there, or comes from a fault whose nearest nullable
place it is. -/
theorem Distinct.null_cases {trace : Trace} (distinct : trace.Distinct)
    {type : Option TypeRef} {data : Json} {place : Path}
    (settled : (trace.outcome.settleAt type).json? = some data)
    (null : data.at? place = some .null) :
    GivesNull trace place ∨ ∃ path fault, FailsAt trace path fault ∧ place <+: path ∧
      nearest? type trace path = some place := by
  induction place generalizing trace type data with
  | nil =>
      rw [Json.at?_nil, Option.some.injEq] at null
      subst null
      cases outcome : trace.outcome with
      | null =>
          rw [eq_null_of_outcome outcome]
          exact .inl .null
      | bubble =>
          rcases distinct.fails_of_bubble outcome with ⟨path, fault, fails, nearest⟩
          refine .inr ⟨path, fault, fails, List.nil_prefix, ?_⟩
          rw [nearest type]
          cases accepts : acceptsNull type with
          | true => rfl
          | false => simp [outcome, Outcome.settleAt, accepts, Outcome.json?] at settled
      | value value =>
          simp only [outcome, Outcome.settleAt, Outcome.json?, Option.some.injEq] at settled
          subst settled
          rw [eq_leaf_of_outcome outcome]
          exact .inl (.leaf rfl)
  | cons segment rest induction =>
      have value : trace.outcome = .value data := by
        cases outcome : trace.outcome with
        | value value => simpa [outcome, Outcome.settleAt, Outcome.json?] using settled
        | null =>
            simp only [outcome, Outcome.settleAt, Outcome.json?, Option.some.injEq] at settled
            subst settled
            simp [Json.at?] at null
        | bubble =>
            cases accepts : acceptsNull type with
            | false => simp [outcome, Outcome.settleAt, accepts, Outcome.json?] at settled
            | true =>
                simp only [outcome, Outcome.settleAt, accepts, if_true, Outcome.json?,
                  Option.some.injEq] at settled
                subst settled
                simp [Json.at?] at null
      rcases child?_of_at? value null with rfl | ⟨childType, child, found⟩
      · exact .inl (.leaf null)
      · rcases outcome_of_child? found with bubbles | ⟨other, entry, same, single, inside⟩
        · rw [bubbles] at value
          cases value
        · rw [value] at same
          cases same
          rw [inside] at null
          rcases induction (distinct.child found) single null with
            gives | ⟨path, fault, fails, isPrefix, nearest⟩
          · exact .inl (.deeper found gives)
          · refine .inr ⟨segment :: path, fault, .deeper found fails,
              List.cons_prefix_cons.mpr ⟨rfl, isPrefix⟩, ?_⟩
            rw [nearest?_of_child? found, nearest]

end Trace

end GraphQuery
