import GraphQuery.Proofs.Execution.Frames

/-! Data with a placeholder in one place. The data of traces that are alike but for a place
are the same once a placeholder stands at the nearest place that accepts null. -/

namespace GraphQuery

/-! ## Placeholders -/

def Entries.adjust {α : Type} (name : String) (change : α → α) : Entries α → Entries α
  | [] => []
  | (key, value) :: rest =>
      (key, if key = name then change value else value) :: adjust name change rest

/-- Put a placeholder at the place of a path, if there is such a place. -/
def Json.replaceAt : Json → Path → Json → Json
  | _, [], placeholder => placeholder
  | .object entries, .key name :: rest, placeholder =>
      .object (Entries.adjust name (fun entry => entry.replaceAt rest placeholder) entries)
  | .array items, .index position :: rest, placeholder =>
      .array (items.modify position fun item => item.replaceAt rest placeholder)
  | value, _ :: _, _ => value

namespace Entries

variable {α : Type} {name : String} {change : α → α} {entries : Entries α}

theorem get?_adjust_self :
    get? name (adjust name change entries) = (get? name entries).map change := by
  induction entries with
  | nil => rfl
  | cons entry rest induction =>
      by_cases same : entry.1 = name
      · simp [adjust, get?, same]
      · simp [adjust, get?, same, induction]

theorem get?_adjust_of_ne {other : String} (different : other ≠ name) :
    get? other (adjust name change entries) = get? other entries := by
  induction entries with
  | nil => rfl
  | cons entry rest induction =>
      by_cases same : entry.1 = name
      · simp [adjust, get?, same, Ne.symm different, induction]
      · simp [adjust, get?, same, induction]

theorem adjust_append (others : Entries α) :
    adjust name change (entries ++ others) =
      adjust name change entries ++ adjust name change others := by
  induction entries with
  | nil => rfl
  | cons entry rest induction => simp [adjust, induction]

theorem adjust_of_not_mem (missing : name ∉ names entries) :
    adjust name change entries = entries := by
  induction entries with
  | nil => rfl
  | cons entry rest induction =>
      rw [names, List.map_cons, List.mem_cons, not_or] at missing
      rw [adjust, if_neg (Ne.symm missing.1), induction missing.2]

end Entries

namespace Json

theorem at?_replaceAt_of_ne {value placeholder : Json} {segment other : PathSegment}
    {rest others : Path} (different : other ≠ segment) :
    (value.replaceAt (segment :: rest) placeholder).at? (other :: others) =
      value.at? (other :: others) := by
  cases value with
  | object entries =>
      cases segment with
      | index position => simp [replaceAt]
      | key name =>
          cases other with
          | index position => simp [replaceAt, at?]
          | key otherName =>
              have names : otherName ≠ name := fun same => different (by rw [same])
              simp [replaceAt, at?, Entries.get?_adjust_of_ne names]
  | array items =>
      cases segment with
      | key name => simp [replaceAt]
      | index position =>
          cases other with
          | key name => simp [replaceAt, at?]
          | index otherPosition =>
              have positions : position ≠ otherPosition := fun same => different (by rw [same])
              simp [replaceAt, at?, List.getElem?_modify_ne _ _ positions]
  | _ => simp [replaceAt]

theorem at?_replaceAt_beside {value placeholder : Json} {place beside : Path}
    (notBelow : ¬ place <+: beside) (notAbove : ¬ beside <+: place) :
    (value.replaceAt place placeholder).at? beside = value.at? beside := by
  induction place generalizing value beside with
  | nil => exact absurd List.nil_prefix notBelow
  | cons segment rest induction =>
      cases beside with
      | nil => exact absurd List.nil_prefix notAbove
      | cons other others =>
          by_cases same : other = segment
          · subst same
            rw [List.cons_prefix_cons, not_and] at notBelow notAbove
            have inner := fun value => @induction value others (notBelow rfl) (notAbove rfl)
            cases value with
            | object entries =>
                cases other with
                | index position => simp [replaceAt]
                | key name =>
                    cases found : Entries.get? name entries <;>
                      simp [replaceAt, at?, Entries.get?_adjust_self, found, inner]
            | array items =>
                cases other with
                | key name => simp [replaceAt]
                | index position =>
                    cases found : items[position]? <;>
                      simp [replaceAt, at?, List.getElem?_modify_eq, found, inner]
            | _ => simp [replaceAt]
          · exact at?_replaceAt_of_ne same

end Json

/-! ## Data around an open place -/

namespace Outcome

theorem length_of_mapM_json? {outcomes : List Outcome} {values : List Json}
    (found : outcomes.mapM json? = some values) : values.length = outcomes.length := by
  induction outcomes generalizing values with
  | nil =>
      cases found
      rfl
  | cons outcome rest induction =>
      rcases exists_of_mapM_json?_cons found with ⟨value, others, _, collected, rfl⟩
      rw [List.length_cons, List.length_cons, induction collected]

end Outcome

namespace Trace

def data? (type : Option TypeRef) (trace : Trace) : Option Json :=
  (trace.outcome.settleAt type).json?

theorem exists_data?_of_acceptsNull {type : Option TypeRef} (accepts : acceptsNull type = true)
    (trace : Trace) : ∃ data, trace.data? type = some data := by
  unfold data?
  cases trace.outcome <;> simp [Outcome.settleAt, accepts, Outcome.json?]

namespace Frame

/-- The data of the other parts, unless one of them bubbles. -/
def around? : Frame → Option (Json → Json)
  | .item type left right => do
      let before ← (itemOutcomes type left).mapM Outcome.json?
      let after ← (itemOutcomes type right).mapM Outcome.json?
      return fun data => .array (before ++ data :: after)
  | .field place left right _ => do
      let before ← (fieldOutcomes left).mapM Outcome.json?
      let after ← (fieldOutcomes right).mapM Outcome.json?
      return fun data => .object ((left.map fun field => field.1.key).zip before ++
        (place.key, data) :: (right.map fun field => field.1.key).zip after)

theorem outcome_fill (frame : Frame) (trace : Trace) :
    (frame.fill trace).outcome =
      match frame.around?, trace.data? frame.type with
      | some around, some data => .value (around data)
      | _, _ => .bubble := by
  cases frame with
  | item type left right =>
      simp only [fill, outcome, Outcome.ofItems, itemOutcomes_eq_map, List.map_append,
        List.map_cons, List.mapM_append, List.mapM_cons, around?, Frame.type, data?]
      cases (left.map fun trace => trace.outcome.settleAt (some type)).mapM Outcome.json? <;>
        cases (trace.outcome.settleAt (some type)).json? <;>
        cases (right.map fun trace => trace.outcome.settleAt (some type)).mapM Outcome.json? <;>
        rfl
  | field place left right apart =>
      simp only [fill, outcome, Outcome.ofFields, fieldOutcomes_eq_map, List.map_append,
        List.map_cons, List.mapM_append, List.mapM_cons, around?, Frame.type, data?]
      cases collected : (left.map fun field => field.2.outcome.settleAt field.1.type).mapM
        Outcome.json? with
      | none => rfl
      | some before =>
          -- the values before the open one belong to the keys before its key
          have aligned : (left.map fun field => field.1.key).length = before.length := by
            simp [Outcome.length_of_mapM_json? collected]
          cases (trace.outcome.settleAt place.type).json? <;>
            cases (right.map fun field => field.2.outcome.settleAt field.1.type).mapM
              Outcome.json? <;>
            simp [List.zip_append aligned]

theorem replaceAt_around {frame : Frame} {around : Json → Json}
    (same : frame.around? = some around) (data placeholder : Json) (rest : Path) :
    (around data).replaceAt (frame.segment :: rest) placeholder =
      around (data.replaceAt rest placeholder) := by
  cases frame with
  | item type left right =>
      rcases Option.bind_eq_some_iff.mp same with ⟨before, collected, same⟩
      rcases Option.bind_eq_some_iff.mp same with ⟨after, _, same⟩
      cases same
      have aligned : left.length = before.length := by
        simp [Outcome.length_of_mapM_json? collected, itemOutcomes_eq_map]
      simp [segment, Json.replaceAt, aligned, List.modify_eq_take_drop]
  | field place left right apart =>
      rcases Option.bind_eq_some_iff.mp same with ⟨before, _, same⟩
      rcases Option.bind_eq_some_iff.mp same with ⟨after, _, same⟩
      cases same
      have missing : ∀ (others : List (FieldPlace × Trace)) (values : List Json),
          (∀ field ∈ others, field.1.key ≠ place.key) →
          place.key ∉ Entries.names ((others.map fun field => field.1.key).zip values) := by
        intro others values different member
        rcases List.mem_map.mp member with ⟨entry, inside, key⟩
        rcases List.mem_map.mp (List.of_mem_zip inside).1 with ⟨field, fieldMember, name⟩
        exact different field fieldMember (name.trans key)
      have onLeft := missing left before fun field member =>
        apart field (List.mem_append_left right member)
      have onRight := missing right after fun field member =>
        apart field (List.mem_append_right left member)
      simp [segment, Json.replaceAt, Entries.adjust_append, Entries.adjust,
        Entries.adjust_of_not_mem onLeft, Entries.adjust_of_not_mem onRight]

theorem data?_fill (frame : Frame) (type : Option TypeRef) (trace : Trace) :
    (frame.fill trace).data? type =
      match frame.around?, trace.data? frame.type with
      | some around, some data => some (around data)
      | _, _ => (Outcome.bubble.settleAt type).json? := by
  rw [data?, outcome_fill]
  cases frame.around? <;> cases trace.data? frame.type <;> rfl

end Frame

theorem Frame.replaceAt_data?_fill (frame : Frame) (type : Option TypeRef) {first second : Trace}
    {nearest : Path} {placeholder : Json}
    (same : (first.data? frame.type).map (fun data => data.replaceAt nearest placeholder) =
      (second.data? frame.type).map fun data => data.replaceAt nearest placeholder) :
    ((frame.fill first).data? type).map
        (fun data => data.replaceAt (frame.segment :: nearest) placeholder) =
      ((frame.fill second).data? type).map
        fun data => data.replaceAt (frame.segment :: nearest) placeholder := by
  rw [frame.data?_fill, frame.data?_fill]
  cases surrounded : frame.around? with
  | none => rfl
  | some around =>
      cases one : first.data? frame.type with
      | none =>
          cases two : second.data? frame.type with
          | none => rfl
          | some other => simp [one, two] at same
      | some data =>
          cases two : second.data? frame.type with
          | none => simp [one, two] at same
          | some other =>
              rw [one, two, Option.map_some, Option.map_some, Option.some.injEq] at same
              simp [Frame.replaceAt_around surrounded, same]

theorem replaceAt_data?_of_acceptsNull {type : Option TypeRef}
    (accepts : acceptsNull type = true) (trace : Trace) (placeholder : Json) :
    (trace.data? type).map (fun data => data.replaceAt [] placeholder) = some placeholder := by
  rcases exists_data?_of_acceptsNull accepts trace with ⟨data, same⟩
  rw [same, Option.map_some, Json.replaceAt]

/-- Two traces that are alike but for a place have the same data but for the nearest place
that accepts null. -/
theorem AlikeBut.replaceAt_data? {path nearest : Path} {first second : Trace}
    (alike : AlikeBut path first second) {type : Option TypeRef}
    (found : nearest? type first path = some nearest) (placeholder : Json) :
    (first.data? type).map (fun data => data.replaceAt nearest placeholder) =
      (second.data? type).map fun data => data.replaceAt nearest placeholder := by
  induction alike generalizing type nearest with
  | here =>
      rcases Option.ite_none_right_eq_some.mp found with ⟨accepts, same⟩
      cases same
      rw [replaceAt_data?_of_acceptsNull accepts, replaceAt_data?_of_acceptsNull accepts]
  | same => rfl
  | inside frame alike induction =>
      rw [nearest?_of_child? (frame.child?_fill _)] at found
      cases deeper : nearest? frame.type _ _ with
      | none =>
          rw [deeper] at found
          rcases Option.ite_none_right_eq_some.mp found with ⟨accepts, same⟩
          cases same
          rw [replaceAt_data?_of_acceptsNull accepts, replaceAt_data?_of_acceptsNull accepts]
      | some below =>
          rw [deeper] at found
          cases found
          exact frame.replaceAt_data?_fill type (induction deeper)

end Trace

end GraphQuery
