import GraphQuery.Execution.Work

/-! A trace tells, for every place of a response, what happened there. From it follow
the response and the faults, and how far a null has come up. -/

namespace GraphQuery

/-! ## Places of a value -/

def Json.at? : Json → Path → Option Json
  | value, [] => some value
  | .object entries, .key name :: rest =>
      (Entries.get? name entries).bind fun entry => entry.at? rest
  | .array items, .index position :: rest => items[position]?.bind fun item => item.at? rest
  | _, _ :: _ => none

@[simp] theorem Json.at?_nil (value : Json) : value.at? [] = some value := by
  cases value <;> rfl

/-- A place without a type is that of an undefined field. It accepts null. -/
def acceptsNull (type : Option TypeRef) : Bool := type.all fun type => !type.isNonNull

/-- What becomes of an outcome at a place. -/
def Outcome.settleAt (type : Option TypeRef) : Outcome → Outcome
  | .bubble => if acceptsNull type then .null else .bubble
  | outcome => outcome

theorem Outcome.settleAt_some (type : TypeRef) (outcome : Outcome) :
    outcome.settleAt (some type) = outcome.settle type := by
  cases outcome with
  | bubble => cases nonNull : type.isNonNull <;> simp [settleAt, settle, acceptsNull, nonNull]
  | _ => rfl

/-! ## Traces -/

structure FieldPlace where
  key : String
  type : Option TypeRef

/-- What happened at a place of a response and at the places below it. -/
inductive Trace where
  /-- The value was null, or became null as a leaf. -/
  | null
  | failed (fault : FieldFault)
  | leaf (value : Json)
  | list (item : TypeRef) (items : List Trace)
  | object (fields : List (FieldPlace × Trace))

namespace Trace

mutual
/-- What becomes of the place before its own type has its say. -/
def outcome : Trace → Outcome
  | .null => .null
  | .failed _ => .bubble
  | .leaf value => .value value
  | .list item items => .ofItems (itemOutcomes item items)
  | .object fields => .ofFields (fields.map fun field => field.1.key) (fieldOutcomes fields)

def itemOutcomes (item : TypeRef) : List Trace → List Outcome
  | [] => []
  | trace :: rest => trace.outcome.settleAt (some item) :: itemOutcomes item rest

def fieldOutcomes : List (FieldPlace × Trace) → List Outcome
  | [] => []
  | (place, trace) :: rest => trace.outcome.settleAt place.type :: fieldOutcomes rest
end

mutual
/-- The faults at the place and below it, in the order of the places. -/
def faults : Trace → List FieldFault
  | .null => []
  | .failed fault => [fault]
  | .leaf _ => []
  | .list _ items => itemFaults items
  | .object fields => fieldFaults fields

def itemFaults : List Trace → List FieldFault
  | [] => []
  | trace :: rest => trace.faults ++ itemFaults rest

def fieldFaults : List (FieldPlace × Trace) → List FieldFault
  | [] => []
  | (_, trace) :: rest => trace.faults ++ fieldFaults rest
end

theorem itemOutcomes_eq_map (item : TypeRef) (items : List Trace) :
    itemOutcomes item items = items.map fun trace => trace.outcome.settleAt (some item) := by
  induction items with
  | nil => rfl
  | cons trace rest induction => rw [itemOutcomes, induction, List.map_cons]

theorem fieldOutcomes_eq_map (fields : List (FieldPlace × Trace)) :
    fieldOutcomes fields = fields.map fun field => field.2.outcome.settleAt field.1.type := by
  induction fields with
  | nil => rfl
  | cons field rest induction => rw [fieldOutcomes, induction, List.map_cons]

theorem itemFaults_eq_flatMap (items : List Trace) : itemFaults items = items.flatMap faults := by
  induction items with
  | nil => rfl
  | cons trace rest induction => rw [itemFaults, induction, List.flatMap_cons]

theorem fieldFaults_eq_flatMap (fields : List (FieldPlace × Trace)) :
    fieldFaults fields = fields.flatMap fun field => field.2.faults := by
  induction fields with
  | nil => rfl
  | cons field rest induction => rw [fieldFaults, induction, List.flatMap_cons]

/-! ## Places of a trace -/

/-- The place directly below, with its type. -/
def child? : Trace → PathSegment → Option (Option TypeRef × Trace)
  | .list item items, .index position => items[position]?.map fun trace => (some item, trace)
  | .object fields, .key name =>
      (fields.find? fun field => field.1.key == name).map fun field => (field.1.type, field.2)
  | _, _ => none

theorem of_child?_list {item : TypeRef} {items : List Trace} {segment : PathSegment}
    {type : Option TypeRef} {child : Trace}
    (found : (list item items).child? segment = some (type, child)) :
    ∃ position, segment = .index position ∧ type = some item ∧ items[position]? = some child := by
  cases segment with
  | key name => simp [child?] at found
  | index position =>
      rcases Option.map_eq_some_iff.mp found with ⟨_, member, same⟩
      cases same
      exact ⟨position, rfl, rfl, member⟩

theorem of_child?_object {fields : List (FieldPlace × Trace)} {segment : PathSegment}
    {type : Option TypeRef} {child : Trace}
    (found : (object fields).child? segment = some (type, child)) :
    ∃ field, segment = .key field.1.key ∧ type = field.1.type ∧ child = field.2 ∧
      fields.find? (fun other => other.1.key == field.1.key) = some field := by
  cases segment with
  | index position => simp [child?] at found
  | key name =>
      rcases Option.map_eq_some_iff.mp found with ⟨field, member, same⟩
      cases same
      have key : field.1.key = name := by simpa using List.find?_some member
      exact ⟨field, by rw [key], rfl, rfl, by rw [key]; exact member⟩

def at? (type : Option TypeRef) (trace : Trace) : Path → Option (Option TypeRef × Trace)
  | [] => some (type, trace)
  | segment :: rest => (trace.child? segment).bind fun below => at? below.1 below.2 rest

/-- The root accepts null. -/
def AcceptsNullAt (trace : Trace) (path : Path) : Prop :=
  ∃ type below, trace.at? none path = some (type, below) ∧ acceptsNull type = true

structure IsNearestNullable (trace : Trace) (path nearest : Path) : Prop where
  isPrefix : nearest <+: path
  accepts : trace.AcceptsNullAt nearest
  longest : ∀ longer, longer <+: path → trace.AcceptsNullAt longer →
    longer.length ≤ nearest.length

/-- The fault was found at the place of the path. -/
inductive FailsAt : Trace → Path → FieldFault → Prop where
  | here {fault : FieldFault} : FailsAt (.failed fault) [] fault
  | deeper {trace child : Trace} {segment : PathSegment} {type : Option TypeRef} {path : Path}
      {fault : FieldFault} (found : trace.child? segment = some (type, child))
      (fails : FailsAt child path fault) : FailsAt trace (segment :: path) fault

/-- A null that was not made by a fault: the value at the place was null, or the
coercion of a leaf left null there or inside its result. -/
inductive GivesNull : Trace → Path → Prop where
  | null : GivesNull .null []
  | leaf {value : Json} {path : Path} (found : value.at? path = some .null) :
      GivesNull (.leaf value) path
  | deeper {trace child : Trace} {segment : PathSegment} {type : Option TypeRef} {path : Path}
      (found : trace.child? segment = some (type, child)) (gives : GivesNull child path) :
      GivesNull trace (segment :: path)

end Trace

end GraphQuery
