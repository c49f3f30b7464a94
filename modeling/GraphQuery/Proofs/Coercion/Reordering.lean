import GraphQuery.Proofs.Coercion.Defaults
import GraphQuery.Proofs.Coercion.Substitution

/-! The order in which arguments and the fields of input objects are given makes no
difference: what comes out is in the order in which they are declared. -/

namespace GraphQuery

variable {α ρ : Type}

/-! ## Lists and objects among the values that are given -/

/-- What the values of a kind consist of: which are lists, and which are objects. What stands in
a value is smaller than the value. -/
structure Outline (α : Type) where
  items? : α → Option (List α)
  fields? : α → Option (List (String × α))
  finite : ∃ size : α → Nat,
    (∀ value items, items? value = some items → ∀ item ∈ items, size item < size value) ∧
      ∀ value fields, fields? value = some fields → ∀ field ∈ fields, size field.2 < size value

namespace Outline

variable {schema : Schema ρ} {outline : Outline α} {type : TypeRef} {first second : α}

def Composite (outline : Outline α) (value : α) : Prop :=
  (outline.items? value).isSome ∨ (outline.fields? value).isSome

/-- Coercion meets lists and objects as the outline tells of them. -/
structure Follows (outline : Outline α) (schema : Schema ρ) (coerce : α → Coercer) : Prop where
  offered : ∀ {value : α}, outline.Composite value → ∃ offer : Offer,
    coerce value = offer.coerce schema ∧ offer.isNull = false ∧
      offer.items = (outline.items? value).map (List.map coerce) ∧
      offer.fields = (outline.fields? value).map
        (List.map fun field => (field.1, coerce field.2))

section Composite

variable {value : α} {items : List α} {fields : List (String × α)}

theorem composite_of_items (given : outline.items? value = some items) :
    outline.Composite value := .inl (by rw [given]; rfl)

theorem composite_of_fields (given : outline.fields? value = some fields) :
    outline.Composite value := .inr (by rw [given]; rfl)

namespace Follows

variable {coerce : α → Coercer} (follows : outline.Follows schema coerce)
include follows

theorem coerce_nonNull (composite : outline.Composite value) (inner : TypeRef) :
    coerce value (.nonNull inner) = coerce value inner := by
  rcases follows.offered composite with ⟨offer, same, present, _⟩
  rw [same, Offer.coerce_nonNull_of_present present]

theorem coerce_list (given : outline.items? value = some items) (item : TypeRef) :
    coerce value (.list item) = (items.mapM fun value => coerce value item).map .array := by
  rcases follows.offered (composite_of_items given) with ⟨offer, same, present, offered, _⟩
  rw [given] at offered
  rw [same, Offer.coerce_list_of_items present offered, List.mapM_map]
  rfl

theorem coerce_only (composite : outline.Composite value) (given : outline.items? value = none)
    (item : TypeRef) :
    coerce value (.list item) = (coerce value item).map fun value => .array [value] := by
  rcases follows.offered composite with ⟨offer, same, present, offered, _⟩
  rw [given] at offered
  rw [same, Offer.coerce_list_of_single present offered]

theorem coerce_inputObject {name : String} {input : InputObjectDefinition}
    (found : schema.type? name = some (.inputObject input))
    (given : outline.fields? value = some fields) :
    coerce value (.named name) =
      Offer.coerceObject input (fields.map fun field => (field.1, coerce field.2)) := by
  rcases follows.offered (composite_of_fields given) with ⟨offer, same, present, _, offered⟩
  rw [given] at offered
  rw [same, Offer.coerce_named_of_present present, Offer.coerceNamed, found, offered]
  rfl

theorem refuses_list {name : String} {input : InputObjectDefinition}
    (found : schema.type? name = some (.inputObject input))
    (composite : outline.Composite value) (given : outline.fields? value = none) (made : Json) :
    coerce value (.named name) ≠ .ok made := by
  rcases follows.offered composite with ⟨offer, same, present, _, offered⟩
  rw [given] at offered
  rw [same, Offer.coerce_named_of_present present, Offer.coerceNamed, found, offered]
  intro refused
  cases refused

end Follows

end Composite

/-- A second value is the first one, but that in objects for input object types, at any depth,
the fields come in another order. No key of theirs is given twice. -/
inductive Rearranged (outline : Outline α) (schema : Schema ρ) : TypeRef → α → α → Prop
  | same (type : TypeRef) (value : α) : Rearranged outline schema type value value
  | nonNull {inner : TypeRef} {first second : α}
      (rearranged : Rearranged outline schema inner first second) :
      Rearranged outline schema (.nonNull inner) first second
  | items {item : TypeRef} {first second : α} {firsts seconds : List α}
      (given : outline.items? first = some firsts) (other : outline.items? second = some seconds)
      (length : firsts.length = seconds.length)
      (rearranged : ∀ pair ∈ firsts.zip seconds,
        Rearranged outline schema item pair.1 pair.2) :
      Rearranged outline schema (.list item) first second
  | only {item : TypeRef} {first second : α} (given : outline.items? first = none)
      (other : outline.items? second = none)
      (rearranged : Rearranged outline schema item first second) :
      Rearranged outline schema (.list item) first second
  | fields {name : String} {input : InputObjectDefinition} {first second : α}
      {firsts seconds : List (String × α)}
      (found : schema.type? name = some (.inputObject input))
      (given : outline.fields? first = some firsts)
      (other : outline.fields? second = some seconds)
      (distinct : (firsts.map Prod.fst).Nodup)
      (keys : (firsts.map Prod.fst).Perm (seconds.map Prod.fst))
      (rearranged : ∀ field ∈ firsts, ∀ other ∈ seconds, field.1 = other.1 →
        ∀ declared ∈ input.fields.values, declared.name = field.1 →
          Rearranged outline schema declared.type field.2 other.2) :
      Rearranged outline schema (.named name) first second

theorem Rearranged.eq_or_composite (rearranged : outline.Rearranged schema type first second) :
    first = second ∨ outline.Composite first ∧ outline.Composite second := by
  induction rearranged with
  | same => exact .inl rfl
  | nonNull _ induction => exact induction
  | items given other => exact .inr ⟨composite_of_items given, composite_of_items other⟩
  | only _ _ _ induction => exact induction
  | fields _ given other => exact .inr ⟨composite_of_fields given, composite_of_fields other⟩

end Outline

/-! ## Fields in any order -/

namespace Offer

variable {declared : List InputDefinition} {provided others : List (String × Coercer)}
  {name : String} {coercer : Coercer}

theorem field?_eq_none : field? name provided = none ↔ name ∉ provided.map Prod.fst := by
  rw [field?, Option.map_eq_none_iff, List.find?_eq_none, List.mem_map, not_exists]
  simp only [beq_iff_eq, not_and]

theorem mem_of_field?_eq_some (found : field? name provided = some coercer) :
    (name, coercer) ∈ provided := by
  rcases Option.map_eq_some_iff.mp found with ⟨field, first, rfl⟩
  have named : field.1 = name := by simpa using List.find?_some first
  exact named ▸ List.mem_of_find?_eq_some first

theorem coerceField_of_agree {definition : InputDefinition}
    (keys : (provided.map Prod.fst).Perm (others.map Prod.fst))
    (agree : ∀ field ∈ provided, ∀ other ∈ others, field.1 = other.1 →
      definition.name = field.1 → Coercer.AgreeAt definition.type field.2 other.2)
    (owner : String) :
    (coerceField owner definition provided).toOption =
      (coerceField owner definition others).toOption := by
  cases first : field? definition.name provided with
  | none =>
      have second : field? definition.name others = none := by
        rw [field?_eq_none] at first ⊢
        rwa [← keys.mem_iff]
      rw [coerceField, coerceField, first, second]
  | some coercer =>
      cases second : field? definition.name others with
      | none =>
          rw [field?_eq_none, ← keys.mem_iff, ← field?_eq_none, first] at second
          cases second
      | some other =>
          have same :=
            agree _ (mem_of_field?_eq_some first) _ (mem_of_field?_eq_some second) rfl rfl
          rw [coerceField, coerceField, first, second]
          simp only [Except.toOption_map]
          rw [same]

end Offer

namespace Outline

variable {schema : Schema ρ} {outline : Outline α} {coerce : α → Coercer} {type : TypeRef}
  {first second : α}

/-- What is given in another order comes to the same. -/
theorem Rearranged.agree (follows : outline.Follows schema coerce)
    (rearranged : outline.Rearranged schema type first second) :
    Coercer.AgreeAt type (coerce first) (coerce second) := by
  induction rearranged with
  | same type value => rfl
  | @nonNull inner first second rearranged induction =>
      rcases rearranged.eq_or_composite with rfl | ⟨composite, alsoComposite⟩
      · rfl
      · rw [Coercer.AgreeAt, follows.coerce_nonNull composite, follows.coerce_nonNull alsoComposite]
        exact induction
  | @items item first second firsts seconds given other length _ induction =>
      rw [Coercer.AgreeAt, follows.coerce_list given, follows.coerce_list other,
        Except.toOption_map, Except.toOption_map, Except.toOption_mapM]
      rw [List.forall₂_iff_zip]
      exact ⟨length, fun member => induction _ member⟩
  | @only item first second given other rearranged induction =>
      rcases rearranged.eq_or_composite with rfl | ⟨composite, alsoComposite⟩
      · rfl
      · rw [Coercer.AgreeAt, follows.coerce_only composite given,
          follows.coerce_only alsoComposite other, Except.toOption_map, Except.toOption_map,
          induction]
  | @fields name input first second firsts seconds found given other distinct keys _ induction =>
      rw [Coercer.AgreeAt, follows.coerce_inputObject found given,
        follows.coerce_inputObject found other]
      have names (fields : List (String × α)) :
          (fields.map fun field => (field.1, coerce field.2)).map Prod.fst =
            fields.map Prod.fst := by
        rw [List.map_map]
        rfl
      have permuted := keys
      rw [← names firsts, ← names seconds] at permuted
      refine Offer.agree_coerceObject (fun key => permuted.mem_iff) fun definition member => ?_
      refine Offer.coerceField_of_agree permuted ?_ _
      intro field among other alsoAmong same named
      rcases List.mem_map.mp among with ⟨source, inside, rfl⟩
      rcases List.mem_map.mp alsoAmong with ⟨otherSource, alsoInside, rfl⟩
      exact induction source inside otherSource alsoInside same definition member named

/-! ## Fields in declared order -/

mutual
/-- What a value has become: objects for input object types, at any depth, have the declared
fields in declared order. What is neither a list nor an object has become what `plain` allows,
and defaults of fields that are not given come as they were declared. -/
inductive Ordered (outline : Outline α) (schema : Schema ρ) (plain : α → TypeRef → Json → Prop) :
    TypeRef → α → Json → Prop
  | plain {type : TypeRef} {value : α} {made : Json} (simple : ¬ outline.Composite value)
      (becomes : plain value type made) : Ordered outline schema plain type value made
  | other {name : String} {value : α} (made : Json) (composite : outline.Composite value)
      (noInput : ∀ input, schema.type? name ≠ some (.inputObject input)) :
      Ordered outline schema plain (.named name) value made
  | nonNull {inner : TypeRef} {value : α} {made : Json} (composite : outline.Composite value)
      (ordered : Ordered outline schema plain inner value made) :
      Ordered outline schema plain (.nonNull inner) value made
  | items {item : TypeRef} {value : α} {values : List α} {made : List Json}
      (given : outline.items? value = some values) (length : values.length = made.length)
      (ordered : ∀ pair ∈ values.zip made, Ordered outline schema plain item pair.1 pair.2) :
      Ordered outline schema plain (.list item) value (.array made)
  | only {item : TypeRef} {value : α} {made : Json} (composite : outline.Composite value)
      (given : outline.items? value = none)
      (ordered : Ordered outline schema plain item value made) :
      Ordered outline schema plain (.list item) value (.array [made])
  | object {name : String} {input : InputObjectDefinition} {value : α}
      {fields : List (String × α)} {entries : List (String × Json)}
      (found : schema.type? name = some (.inputObject input))
      (given : outline.fields? value = some fields)
      (ordered : OrderedFields outline schema plain fields input.fields.values entries) :
      Ordered outline schema plain (.named name) value (.object entries)

inductive OrderedFields (outline : Outline α) (schema : Schema ρ)
    (plain : α → TypeRef → Json → Prop) :
    List (String × α) → List InputDefinition → List (String × Json) → Prop
  | nil (fields : List (String × α)) : OrderedFields outline schema plain fields [] []
  | given {fields : List (String × α)} {declared : InputDefinition} {rest : List InputDefinition}
      {field : String × α} {made : Json} {entries : List (String × Json)}
      (first : fields.find? (fun field => field.1 == declared.name) = some field)
      (ordered : Ordered outline schema plain declared.type field.2 made)
      (more : OrderedFields outline schema plain fields rest entries) :
      OrderedFields outline schema plain fields (declared :: rest)
        ((declared.name, made) :: entries)
  | default {fields : List (String × α)} {declared : InputDefinition}
      {rest : List InputDefinition} {default : Json} {entries : List (String × Json)}
      (absent : fields.find? (fun field => field.1 == declared.name) = none)
      (isDefault : declared.default = some default)
      (more : OrderedFields outline schema plain fields rest entries) :
      OrderedFields outline schema plain fields (declared :: rest)
        ((declared.name, default) :: entries)
  | absent {fields : List (String × α)} {declared : InputDefinition} {rest : List InputDefinition}
      {entries : List (String × Json)}
      (absent : fields.find? (fun field => field.1 == declared.name) = none)
      (noDefault : declared.default = none)
      (more : OrderedFields outline schema plain fields rest entries) :
      OrderedFields outline schema plain fields (declared :: rest) entries
end

variable {plain : α → TypeRef → Json → Prop}

theorem field?_map (name : String) (fields : List (String × α)) :
    Offer.field? name (fields.map fun field => (field.1, coerce field.2)) =
      (fields.find? fun field => field.1 == name).map fun field => coerce field.2 := by
  rw [Offer.field?, List.find?_map, Option.map_map]
  rfl

theorem orderedFields_of_coerceFields {owner : String} {fields : List (String × α)}
    (ordered : ∀ field ∈ fields, ∀ type made, coerce field.2 type = .ok made →
      outline.Ordered schema plain type field.2 made)
    {declared : List InputDefinition} {entries : List (String × Json)}
    (done : Offer.coerceFields owner (fields.map fun field => (field.1, coerce field.2)) declared =
      .ok entries) : outline.OrderedFields schema plain fields declared entries := by
  induction declared generalizing entries with
  | nil =>
      cases done
      exact .nil fields
  | cons definition rest induction =>
      rcases Except.exists_of_bind done with ⟨value, here, done⟩
      rcases Except.exists_of_bind done with ⟨others, more, done⟩
      rw [Offer.coerceField, field?_map] at here
      cases first : fields.find? fun field => field.1 == definition.name with
      | some field =>
          rw [first] at here
          rcases Except.exists_of_map here with ⟨made, coerced, rfl⟩
          cases done
          have made := ordered field (List.mem_of_find?_eq_some first) _ _ coerced
          exact .given first made (induction more)
      | none =>
          rw [first] at here
          cases default : definition.default with
          | some default =>
              simp only [Option.map_none, default] at here
              cases here
              cases done
              exact .default first ‹_› (induction more)
          | none =>
              simp only [Option.map_none, default] at here
              split at here
              · cases here
              · cases here
                cases done
                exact .absent first default (induction more)

theorem Follows.ordered (follows : outline.Follows schema coerce)
    (becomes : ∀ {value type made}, ¬ outline.Composite value → coerce value type = .ok made →
      plain value type made)
    {value : α} {type : TypeRef} {made : Json} (done : coerce value type = .ok made) :
    outline.Ordered schema plain type value made := by
  rcases outline.finite with ⟨size, itemSmaller, fieldSmaller⟩
  induction total : size value using Nat.strongRecOn generalizing value type made with
  | ind total within =>
      subst total
      by_cases composite : outline.Composite value
      · -- Below a type the value is the same one, so the types inside come next.
        induction type generalizing made with
        | nonNull inner induction =>
            rw [follows.coerce_nonNull composite] at done
            exact .nonNull composite (induction done)
        | list item induction =>
            cases given : outline.items? value with
            | some values =>
                rw [follows.coerce_list given] at done
                rcases Except.exists_of_map done with ⟨results, all, rfl⟩
                have aligned := List.forall₂_iff_zip.mp (Except.forall₂_of_mapM all)
                refine .items given aligned.1 fun pair member => ?_
                have smaller := itemSmaller value values given pair.1 (List.of_mem_zip member).1
                exact within _ smaller (aligned.2 member) rfl
            | none =>
                rw [follows.coerce_only composite given] at done
                rcases Except.exists_of_map done with ⟨single, coerced, rfl⟩
                exact .only composite given (induction coerced)
        | named name =>
            by_cases isInput : ∃ input, schema.type? name = some (.inputObject input)
            · rcases isInput with ⟨input, found⟩
              cases given : outline.fields? value with
              | some fields =>
                  rw [follows.coerce_inputObject found given, Offer.coerceObject] at done
                  split at done
                  · cases done
                  · rcases Except.exists_of_map done with ⟨entries, all, rfl⟩
                    refine .object found given (orderedFields_of_coerceFields ?_ all)
                    intro field member type made coerced
                    exact within _ (fieldSmaller value fields given field member) coerced rfl
              | none => exact absurd done (follows.refuses_list found composite given made)
            · exact .other made composite fun input found => isInput ⟨input, found⟩
      · exact .plain composite (becomes composite done)

end Outline

/-! ## Literals and JSON values -/

def Literal.outline : Outline Literal where
  items? := fun
    | .list items => some items
    | _ => none
  fields? := fun
    | .object fields => some (fields.map fun field => (field.1.text, field.2))
    | _ => none
  finite := by
    refine ⟨sizeOf, ?_, ?_⟩
    · intro value items given item member
      split at given <;> cases given
      have smaller := List.sizeOf_lt_of_mem member
      simp only [Literal.list.sizeOf_spec]
      omega
    · intro value fields given field member
      split at given <;> cases given
      rcases List.mem_map.mp member with ⟨⟨name, held⟩, inside, rfl⟩
      have smaller := List.sizeOf_lt_of_mem inside
      simp only [Prod.mk.sizeOf_spec] at smaller
      simp only [Literal.object.sizeOf_spec]
      omega

def Json.outline : Outline Json where
  items? := fun
    | .array items => some items
    | _ => none
  fields? := fun
    | .object entries => some entries
    | _ => none
  finite := by
    refine ⟨sizeOf, ?_, ?_⟩
    · intro value items given item member
      split at given <;> cases given
      have smaller := List.sizeOf_lt_of_mem member
      simp only [Json.array.sizeOf_spec]
      omega
    · intro value fields given field member
      split at given <;> cases given
      have smaller := List.sizeOf_lt_of_mem member
      rcases field with ⟨name, held⟩
      simp only [Prod.mk.sizeOf_spec] at smaller
      simp only [Json.object.sizeOf_spec]
      omega

/-! ## What variables give -/

/-- What a literal gives that is neither a list nor an object. A variable gives the value that
it is bound to, in the lists that its position asks for, and null if it has none. What the
others give is left to their types. -/
def Literal.Gives (bindings : Variables) : Literal → TypeRef → Json → Prop
  | .reference name, type, made =>
      ∃ binding, Entries.get? name.text bindings = some binding ∧
        made = (binding.value.map (promote binding.type type)).getD .null
  | _, _, _ => True

abbrev Literal.Ordered (schema : Schema ρ) (bindings : Variables) :
    TypeRef → Literal → Json → Prop :=
  Literal.outline.Ordered schema (Literal.Gives bindings)

abbrev Json.Ordered (schema : Schema ρ) : TypeRef → Json → Json → Prop :=
  Json.outline.Ordered schema fun _ _ _ => True

theorem exists_of_coerceVariable {bindings : Variables} {name : String} {type : TypeRef}
    {made : Json} (done : coerceVariable bindings name type = .ok made) :
    ∃ binding, Entries.get? name bindings = some binding ∧
      made = (binding.value.map (promote binding.type type)).getD .null := by
  unfold coerceVariable at done
  split at done
  · cases done
  · rename_i binding found
    refine ⟨binding, found, ?_⟩
    extract_lets position at done
    split at done
    · cases done
    · split at done
      · rename_i unbound
        split at done <;> cases done
        rw [unbound]
        rfl
      · rename_i null
        split at done <;> cases done
        rw [null]
        exact (promote_null _ _).symm
      · rename_i value _ held
        cases done
        rw [held]
        rfl

/-- The second value is the first one, but that it and items of it may have been wrapped in
lists. -/
inductive Json.Wrapped : Json → Json → Prop
  | same (value : Json) : Wrapped value value
  | single {value made : Json} (wrapped : Wrapped value made) : Wrapped value (.array [made])
  | items {values made : List Json} (wrapped : List.Forall₂ Wrapped values made) :
      Wrapped (.array values) (.array made)

theorem wrapped_promote (declared position : TypeRef) (value : Json) :
    value.Wrapped (promote declared position value) := by
  induction position generalizing declared value with
  | named name => exact .same value
  | nonNull position induction => exact induction declared value
  | list position induction =>
      unfold promote
      split
      · exact .same _
      · rename_i items _
        refine .items (List.forall₂_map_right_iff.mpr (List.forall₂_same.mpr ?_))
        exact fun item _ => induction _ item
      · exact .same _
      · exact .single (induction _ _)

namespace Schema

theorem follows_coerceLiteral (schema : Schema ρ) (bindings : Variables) :
    Literal.outline.Follows schema (schema.coerceLiteral bindings) where
  offered := by
    intro value composite
    cases value with
    | list items =>
        refine ⟨_, by rw [coerceLiteral], rfl, ?_, rfl⟩
        exact congrArg some (literalCoercers_eq_map items)
    | object fields =>
        refine ⟨_, by rw [coerceLiteral], rfl, rfl, ?_⟩
        refine congrArg some ((fieldCoercers_eq_map fields).trans ?_)
        rw [List.map_map]
        rfl
    | _ => rcases composite with given | given <;> cases given

theorem follows_coerceInput (schema : Schema ρ) :
    Json.outline.Follows schema schema.coerceInput where
  offered := by
    intro value composite
    cases value with
    | array items =>
        refine ⟨_, by rw [coerceInput], rfl, ?_, rfl⟩
        exact congrArg some (itemCoercers_eq_map items)
    | object entries =>
        refine ⟨_, by rw [coerceInput], rfl, rfl, ?_⟩
        exact congrArg some (entryCoercers_eq_map entries)
    | _ => rcases composite with given | given <;> cases given

theorem ordered_of_coerceLiteral {schema : Schema ρ} {bindings : Variables} {literal : Literal}
    {type : TypeRef} {made : Json} (done : schema.coerceLiteral bindings literal type = .ok made) :
    literal.Ordered schema bindings type made := by
  refine (schema.follows_coerceLiteral bindings).ordered ?_ done
  intro value type made _ given
  cases value with
  | reference name =>
      rw [coerceLiteral] at given
      exact exists_of_coerceVariable given
  | _ => trivial

theorem ordered_of_coerceInput {schema : Schema ρ} {value : Json} {type : TypeRef} {made : Json}
    (done : schema.coerceInput value type = .ok made) : value.Ordered schema type made :=
  schema.follows_coerceInput.ordered (fun _ _ => trivial) done

/-! ## Arguments -/

/-- The same arguments in any order, with the fields in their values in any order. No argument
is given twice. -/
structure RearrangedArguments (schema : Schema ρ) (declared : List InputDefinition)
    (given others : List Argument) : Prop where
  distinct : (given.map fun argument => argument.name.text).Nodup
  names : (given.map fun argument => argument.name.text).Perm
    (others.map fun argument => argument.name.text)
  values : ∀ argument ∈ given, ∀ other ∈ others, argument.name.text = other.name.text →
    ∀ definition ∈ declared, definition.name = argument.name.text →
      Literal.outline.Rearranged schema definition.type argument.value other.value

/-- What a declared argument becomes: what is given for it, with the fields of objects in
declared order and variables exchanged for their values; its default or else null if nothing is
given, or a variable without a value. -/
inductive Answers (schema : Schema ρ) (bindings : Variables) (given : List Argument)
    (declared : InputDefinition) : String × Json → Prop
  | given {argument : Argument} {made : Json}
      (first : Argument.find? declared.name given = some argument)
      (supplied : isOmitted bindings argument = false)
      (ordered : argument.value.Ordered schema bindings declared.type made) :
      Answers schema bindings given declared (declared.name, made)
  | leftOut (omitted : LeavesOut bindings declared.name given) :
      Answers schema bindings given declared (declared.name, declared.default.getD .null)

variable {schema : Schema ρ} {bindings : Variables} {field : String}
  {given others : List Argument} {declared : List InputDefinition}

theorem isOmitted_of_composite {argument : Argument}
    (composite : Literal.outline.Composite argument.value) :
    isOmitted bindings argument = false := by
  unfold isOmitted
  split
  next isReference =>
    rw [isReference] at composite
    rcases composite with given | given <;> cases given
  · rfl

theorem isOmitted_of_rearranged {argument other : Argument} {type : TypeRef}
    (rearranged : Literal.outline.Rearranged schema type argument.value other.value) :
    isOmitted bindings argument = isOmitted bindings other := by
  rcases rearranged.eq_or_composite with same | ⟨first, second⟩
  · rw [isOmitted, isOmitted, same]
  · rw [isOmitted_of_composite first, isOmitted_of_composite second]

theorem find?_eq_none {name : String} : Argument.find? name given = none ↔
    name ∉ given.map fun argument => argument.name.text := by
  simp [Argument.find?]

theorem find?_eq_none_of_names {name : String}
    (names : (given.map fun argument => argument.name.text).Perm
      (others.map fun argument => argument.name.text)) :
    Argument.find? name given = none ↔ Argument.find? name others = none := by
  rw [find?_eq_none, find?_eq_none, names.mem_iff]

theorem toOption_coerceArgument_some (definition : InputDefinition) (argument : Argument) :
    (schema.coerceArgument field bindings definition (some argument)).toOption =
      if isOmitted bindings argument then some (definition.default.getD .null)
      else (schema.coerceLiteral bindings argument.value definition.type).toOption := by
  cases omitted : isOmitted bindings argument with
  | true => simp [coerceArgument, Option.filter, omitted, Except.toOption]
  | false =>
      simp only [coerceArgument, Option.filter, omitted, Bool.not_false, if_true,
        Bool.false_eq_true, if_false]
      cases schema.coerceLiteral bindings argument.value definition.type <;> rfl

theorem agree_coerceArgument (rearranged : schema.RearrangedArguments declared given others)
    {definition : InputDefinition} (member : definition ∈ declared) :
    (schema.coerceArgument field bindings definition
        (Argument.find? definition.name given)).toOption =
      (schema.coerceArgument field bindings definition
        (Argument.find? definition.name others)).toOption := by
  cases first : Argument.find? definition.name given with
  | none => rw [(find?_eq_none_of_names rearranged.names).mp first]
  | some argument =>
      cases second : Argument.find? definition.name others with
      | none =>
          rw [(find?_eq_none_of_names rearranged.names).mpr second] at first
          cases first
      | some other =>
          have named : argument.name.text = definition.name := by
            simpa using List.find?_some first
          have alsoNamed : other.name.text = definition.name := by
            simpa using List.find?_some second
          have values := rearranged.values argument (List.mem_of_find?_eq_some first) other
            (List.mem_of_find?_eq_some second) (named.trans alsoNamed.symm) definition member
            named.symm
          have agree := values.agree (schema.follows_coerceLiteral bindings)
          rw [toOption_coerceArgument_some, toOption_coerceArgument_some,
            isOmitted_of_rearranged values, agree]

theorem agree_coerceDeclared (rearranged : schema.RearrangedArguments declared given others)
    {definitions : List InputDefinition} (subset : definitions ⊆ declared) :
    (schema.coerceDeclared field bindings given definitions).toOption =
      (schema.coerceDeclared field bindings others definitions).toOption := by
  induction definitions with
  | nil => rfl
  | cons definition rest induction =>
      rcases List.cons_subset.mp subset with ⟨member, subset⟩
      simp only [coerceDeclared, Except.toOption_bind, agree_coerceArgument rearranged member,
        induction subset]

theorem toOption_coerceArguments (field : FieldDefinition ρ) (given : List Argument) :
    (schema.coerceArguments field given bindings).toOption =
      if ∀ name ∈ given.map fun argument : Argument => argument.name.text,
          name ∈ Entries.names field.arguments then
        (schema.coerceDeclared field.name bindings given field.arguments.values).toOption
      else none := by
  have allKnown : (given.find? fun argument =>
        !Entries.contains argument.name.text field.arguments) = none ↔
      ∀ name ∈ given.map fun argument => argument.name.text,
        name ∈ Entries.names field.arguments := by
    simp [Entries.contains_iff]
  simp only [← allKnown]
  unfold coerceArguments
  cases given.find? fun argument => !Entries.contains argument.name.text field.arguments with
  | some unknown => rfl
  | none => simp only [if_true]

theorem agree_coerceArguments {field : FieldDefinition ρ}
    (rearranged : schema.RearrangedArguments field.arguments.values given others) :
    (schema.coerceArguments field given bindings).toOption =
      (schema.coerceArguments field others bindings).toOption := by
  simp only [toOption_coerceArguments, rearranged.names.mem_iff,
    agree_coerceDeclared rearranged (List.Subset.refl _)]

theorem answers_of_coerceArgument {definition : InputDefinition} {value : Json}
    (done : schema.coerceArgument field bindings definition
      (Argument.find? definition.name given) = .ok value) :
    schema.Answers bindings given definition (definition.name, value) := by
  rw [← Except.toOption_eq_some_iff] at done
  cases first : Argument.find? definition.name given with
  | none =>
      rw [first] at done
      cases done
      exact .leftOut fun argument found => by rw [first] at found; cases found
  | some argument =>
      rw [first, toOption_coerceArgument_some] at done
      split at done
      next omitted =>
        cases done
        refine .leftOut fun other found => ?_
        rw [first] at found
        cases found
        exact omitted
      next supplied =>
        rw [Except.toOption_eq_some_iff] at done
        exact .given first (Bool.eq_false_iff.mpr supplied)
          (ordered_of_coerceLiteral done)

theorem answers_of_coerceDeclared {values : Entries Json}
    (done : schema.coerceDeclared field bindings given declared = .ok values) :
    List.Forall₂ (schema.Answers bindings given) declared values := by
  induction declared generalizing values with
  | nil =>
      cases done
      exact .nil
  | cons definition rest induction =>
      rcases Except.exists_of_bind done with ⟨value, first, done⟩
      rcases Except.exists_of_bind done with ⟨others, second, same⟩
      cases same
      exact .cons (answers_of_coerceArgument first) (induction second)

/-! ## Variables -/

/-- What a variable is bound to, which comes from its definition: what is given for it, or else
its default, with the fields of objects in declared order. -/
inductive Holds (schema : Schema ρ) (given : Entries Json) (definition : VariableDefinition) :
    TypeRef → Json → Prop
  | given {type : TypeRef} {value made : Json}
      (found : Entries.get? definition.name.text given = some value)
      (ordered : value.Ordered schema type made) :
      Holds schema given definition type made
  | default {type : TypeRef} {default : Literal} {made : Json}
      (defined : definition.default = some default)
      (ordered : default.Ordered schema [] type made) :
      Holds schema given definition type made

theorem holds_of_bindVariable {given : Entries Json} {definition : VariableDefinition}
    {binding : Binding} (bound : schema.bindVariable definition given = .ok binding)
    {value : Json} (held : binding.value = some value) :
    schema.Holds given definition binding.type value := by
  simp only [bindVariable] at bound
  split at bound
  · cases bound
  · split at bound
    · cases bound
    · split at bound
      · cases bound
      · rename_i found done
        cases bound
        cases held
        rw [← Except.toOption_eq_some_iff] at done
        cases supplied : Entries.get? definition.name.text given with
        | some supply =>
            rw [supplied, toOption_variableValue_given, Option.map_eq_some_iff] at done
            rcases done with ⟨_, coerced, ⟨⟩⟩
            rw [Except.toOption_eq_some_iff] at coerced
            exact .given supplied (ordered_of_coerceInput coerced)
        | none =>
            cases defined : definition.default with
            | some default =>
                rw [supplied, defined, toOption_variableValue_default,
                  Option.map_eq_some_iff] at done
                rcases done with ⟨_, coerced, ⟨⟩⟩
                rw [Except.toOption_eq_some_iff] at coerced
                exact .default defined (ordered_of_coerceLiteral coerced)
            | none =>
                rw [supplied, defined, variableValue] at done
                split at done <;> cases done

/-- Arguments that are given in another order, with the fields of their input objects in another
order, are coerced to the same or refused as well. What comes out are the declared arguments in
declared order, and every input object that is given has its fields in declared order. A variable
gives the value that it is bound to, which is wrapped in lists but not changed otherwise; every
input object that is given for it, or in its default, has its fields in declared order as well.
Values that come with a request are treated alike. -/
theorem order_is_irrelevant (schema : Schema ρ) (field : FieldDefinition ρ)
    (bindings : Variables) :
    (∀ given others, schema.RearrangedArguments field.arguments.values given others →
      (schema.coerceArguments field given bindings).toOption =
        (schema.coerceArguments field others bindings).toOption) ∧
    (∀ given values, schema.coerceArguments field given bindings = .ok values →
      List.Forall₂ (schema.Answers bindings given) field.arguments.values values) ∧
    (∀ type first second, Json.outline.Rearranged schema type first second →
      (schema.coerceInput first type).toOption = (schema.coerceInput second type).toOption) ∧
    (∀ type value made, schema.coerceInput value type = .ok made →
      value.Ordered schema type made) ∧
    (∀ definitions given, schema.coerceVariables definitions given = .ok bindings →
      ∀ name binding value, Entries.get? name bindings = some binding →
        binding.value = some value → ∃ definition ∈ definitions, definition.name.text = name ∧
          schema.Holds given definition binding.type value) ∧
    ∀ declared position value, Json.Wrapped value (promote declared position value) := by
  refine ⟨fun _ _ => agree_coerceArguments, ?_, ?_, ?_, ?_, wrapped_promote⟩
  · intro given values done
    unfold coerceArguments at done
    split at done
    · cases done
    · exact answers_of_coerceDeclared done
  · exact fun _ _ _ rearranged => rearranged.agree schema.follows_coerceInput
  · exact fun _ _ _ done => ordered_of_coerceInput done
  · intro definitions given bound name binding value found held
    rcases exists_of_coerceVariables bound found with ⟨definition, member, named, first⟩
    exact ⟨definition, member, named, holds_of_bindVariable first held⟩

end Schema

/-! ## A stay that is described the other way round -/

namespace Booking

/-- The arguments `(stay: {nights: 3, guests: 4}, currency: "USD")`. -/
def forwards : List Argument :=
  [⟨name "stay", .object [(name "nights", .int 3), (name "guests", .int 4)], ⟨0, 0⟩, ⟨1, 1⟩⟩,
    ⟨name "currency", .string "USD", ⟨0, 0⟩, ⟨1, 1⟩⟩]

def backwards : List Argument :=
  [⟨name "currency", .string "USD", ⟨0, 0⟩, ⟨1, 1⟩⟩,
    ⟨name "stay", .object [(name "guests", .int 4), (name "nights", .int 3)], ⟨0, 0⟩, ⟨1, 1⟩⟩]

theorem stay_rearranged : Literal.outline.Rearranged schema (.nonNull (.named "Stay"))
    (.object [(name "nights", .int 3), (name "guests", .int 4)])
    (.object [(name "guests", .int 4), (name "nights", .int 3)]) := by
  refine .nonNull (.fields rfl rfl rfl (by decide) (.swap _ _ _) ?_)
  intro field member other alsoMember same declared _ _
  have equal : field.2 = other.2 := by
    simp only [List.map_cons, List.map_nil, List.mem_cons, List.not_mem_nil, or_false] at member
    simp only [List.map_cons, List.map_nil, List.mem_cons, List.not_mem_nil, or_false]
      at alsoMember
    rcases member with rfl | rfl <;> rcases alsoMember with rfl | rfl <;>
      first | rfl | exact absurd same (by decide)
  rw [equal]
  exact .same _ _

theorem rearranged : schema.RearrangedArguments price.arguments.values forwards backwards where
  distinct := by decide
  names := .swap _ _ _
  values := by
    intro argument member other alsoMember same definition isDeclared named
    simp only [forwards, List.mem_cons, List.not_mem_nil, or_false] at member
    simp only [backwards, List.mem_cons, List.not_mem_nil, or_false] at alsoMember
    simp only [price, Entries.values, List.map_cons, List.map_nil, List.mem_cons, List.not_mem_nil,
      or_false] at isDeclared
    rcases member with rfl | rfl <;> rcases alsoMember with rfl | rfl
    · exact absurd same (by decide)
    · rcases isDeclared with rfl | rfl | rfl | rfl
      · exact stay_rearranged
      · exact absurd named (by decide)
      · exact absurd named (by decide)
      · exact absurd named (by decide)
    · exact .same _ _
    · exact absurd same (by decide)

theorem described_either_way :
    schema.RearrangedArguments price.arguments.values forwards backwards ∧
      schema.coerceArguments price forwards [] = .ok
        [("stay", .object [("nights", .integer 3), ("guests", .integer 4)]), ("codes", .null),
          ("discount", .null), ("currency", .string "USD")] ∧
      schema.coerceArguments price backwards [] = schema.coerceArguments price forwards [] := by
  have coerced : schema.coerceArguments price forwards [] = .ok
      [("stay", .object [("nights", .integer 3), ("guests", .integer 4)]), ("codes", .null),
        ("discount", .null), ("currency", .string "USD")] := by cbv
  have same := (Schema.order_is_irrelevant schema price []).1 forwards backwards rearranged
  rw [coerced] at same
  exact ⟨rearranged, coerced, coerced ▸ Except.eq_ok_of_toOption same.symm⟩

/-! A default is handed out as it was declared. -/

def quote : FieldDefinition Unit where
  name := "quote"
  description := none
  type := .named "Int"
  arguments :=
    [("stay", ⟨"stay", none, .named "Stay",
      some (.object [("guests", .integer 2), ("nights", .integer 1)])⟩)]
  resolver := none

def quoteBuilder : SchemaBuilder Unit :=
  ((SchemaBuilder.initial.add (.inputObject stay)).add
    (.object ⟨"Query", none, [("quote", quote)], []⟩)).withRoot .query "Query"

def quoteSchema : Schema Unit where
  types := quoteBuilder.types
  query := "Query"
  mutation := none
  subscription := none

/-- The fields of a default keep their order, which need not be the declared one. -/
theorem default_keeps_its_order :
    quoteSchema.IsBuilt ∧ quoteSchema.coerceVariables [] [] = .ok [] ∧
      quoteSchema.type? "Stay" = some (.inputObject stay) ∧
      quoteSchema.coerceArguments quote [] [] =
        .ok [("stay", .object [("guests", .integer 2), ("nights", .integer 1)])] ∧
      ¬ List.Sublist ["guests", "nights"] (stay.fields.values.map InputDefinition.name) := by
  have isBuilt : quoteSchema.IsBuilt :=
    ⟨quoteBuilder, .withRoot .query "Query" (.add _ (.add _ .initial)), rfl⟩
  have coerced : quoteSchema.coerceArguments quote [] [] =
      .ok [("stay", .object [("guests", .integer 2), ("nights", .integer 1)])] := by cbv
  exact ⟨isBuilt, rfl, rfl, coerced, by decide⟩

end Booking

end GraphQuery
