import GraphQuery.Proofs.Coercion.Reordering
import GraphQuery.Proofs.Schema.Interfaces

/-! A variable without a value, in the place of an argument or of a field of an input object. It
leaves an argument out, whose default then counts. A field that it is given for is not left out:
the field gets null, where its type accepts null and the variable, and the default does not
count. -/

namespace GraphQuery

variable {ι α β γ δ ε ρ : Type}

/-! ## Outcomes that hang on one part -/

/-- In every case a whole puts its part into the same place, or else it never succeeds. -/
def HangsOn (whole : ι → Option β) (part : ι → Option α) : Prop :=
  (∀ case, whole case = none) ∨
    ∃ put : α → β, put.Injective ∧ ∀ case, whole case = (part case).map put

namespace HangsOn

variable {whole : ι → Option γ} {middle : ι → Option β} {part : ι → Option α}

theorem refl (part : ι → Option α) : HangsOn part part :=
  .inr ⟨id, Function.injective_id, fun case => by rw [Option.map_id, id]⟩

theorem trans (outer : HangsOn whole middle) (inner : HangsOn middle part) :
    HangsOn whole part := by
  rcases outer with fails | ⟨put, injective, outer⟩
  · exact .inl fails
  · rcases inner with fails | ⟨place, alsoInjective, inner⟩
    · exact .inl fun case => by rw [outer, fails, Option.map_none]
    · exact .inr ⟨put ∘ place, injective.comp alsoInjective, fun case => by
        rw [outer, inner, Option.map_map]⟩

theorem of_map (put : α → β) (injective : put.Injective)
    (placed : ∀ case, middle case = (part case).map put) : HangsOn middle part :=
  .inr ⟨put, injective, placed⟩

theorem eq_none (hangs : HangsOn whole part) {case : ι} (fails : part case = none) :
    whole case = none := by
  rcases hangs with never | ⟨put, _, placed⟩
  · exact never case
  · rw [placed, fails, Option.map_none]

theorem eq_of_eq (hangs : HangsOn whole part) {first second : ι}
    (same : part first = part second) : whole first = whole second := by
  rcases hangs with never | ⟨put, _, placed⟩
  · rw [never, never]
  · rw [placed, placed, same]

theorem eq_iff (hangs : HangsOn whole part) {first second : ι}
    (fails : part second = none → part first = none) :
    whole first = whole second ↔
      whole second = none ∨ ∃ value, part first = some value ∧ part second = some value := by
  rcases hangs with never | ⟨put, injective, placed⟩
  · simp only [never, true_or]
  · rw [placed, placed, (Option.map_injective injective).eq_iff, Option.map_eq_none_iff]
    cases given : part second with
    | none => simp [fails given]
    | some value => simp

theorem of_between (heads : Option δ) (tails : Option ε) (put : δ → α → ε → β)
    (injective : ∀ head tail, Function.Injective fun value => put head value tail)
    (placed : ∀ case, middle case = heads.bind fun head => (part case).bind fun value =>
      tails.map fun tail => put head value tail) : HangsOn middle part := by
  cases heads with
  | none => exact .inl fun case => by rw [placed, Option.bind_none]
  | some head =>
      cases tails with
      | none => exact .inl fun case => by simp [placed]
      | some tail =>
          refine .inr ⟨fun value => put head value tail, injective head tail, fun case => ?_⟩
          rw [placed]
          cases part case <;> rfl

end HangsOn

/-- A definition is one of the declared ones, under its own name, which no other has. -/
def InputDefinition.StandsIn (definition : InputDefinition) (declared : Entries InputDefinition) :
    Prop :=
  ∃ before after : Entries InputDefinition,
    declared = before ++ (definition.name, definition) :: after ∧
      ∀ other ∈ before.values ++ after.values, other.name ≠ definition.name

namespace InputDefinition.StandsIn

variable {definition : InputDefinition} {declared : Entries InputDefinition}
  (stands : definition.StandsIn declared)
include stands

theorem exists_values : ∃ before after : List InputDefinition,
    declared.values = before ++ definition :: after ∧
      ∀ other ∈ before ++ after, other.name ≠ definition.name := by
  rcases stands with ⟨before, after, rfl, different⟩
  exact ⟨before.values, Entries.values after, by simp [Entries.values], different⟩

theorem name_mem : definition.name ∈ declared.names := by
  rcases stands with ⟨before, after, rfl, _⟩
  simp [Entries.names]

theorem known_iff (names others : List String)
    (elsewhere : ∀ name, name ≠ definition.name → (name ∈ names ↔ name ∈ others)) :
    (∀ name ∈ names, name ∈ declared.names) ↔ ∀ name ∈ others, name ∈ declared.names := by
  refine forall_congr' fun name => ?_
  by_cases same : name = definition.name
  · simp only [same, stands.name_mem, implies_true]
  · rw [elsewhere name same]

end InputDefinition.StandsIn

/-! ## One field of an object -/

namespace Offer

variable {owner : String} {provided others : List (String × Coercer)} {name : String}

theorem field?_ne_none : field? name provided ≠ none ↔ name ∈ provided.map Prod.fst := by
  rw [ne_eq, field?_eq_none, not_not]

theorem field?_between {before after : List (String × Coercer)} {coercer : Coercer}
    (different : name ≠ owner) :
    field? name (before ++ (owner, coercer) :: after) = field? name (before ++ after) := by
  simp [field?, List.find?_append, Ne.symm different]

theorem field?_between_self {before after : List (String × Coercer)} {coercer : Coercer}
    (fresh : name ∉ before.map Prod.fst) :
    field? name (before ++ (name, coercer) :: after) = some coercer := by
  have absent : field? name before = none := field?_eq_none.mpr fresh
  rw [field?, Option.map_eq_none_iff] at absent
  simp [field?, List.find?_append, absent]

theorem coerceFields_congr {declared : List InputDefinition}
    (same : ∀ definition ∈ declared, field? definition.name provided =
      field? definition.name others) :
    coerceFields owner provided declared = coerceFields owner others declared := by
  induction declared with
  | nil => rfl
  | cons definition rest induction =>
      rw [List.forall_mem_cons] at same
      simp only [coerceFields, coerceField, same.1, induction same.2]

theorem coerceFields_append (before after : List InputDefinition) :
    coerceFields owner provided (before ++ after) =
      (do
        let heads ← coerceFields owner provided before
        let tails ← coerceFields owner provided after
        return heads ++ tails) := by
  induction before with
  | nil =>
      simp only [List.nil_append, coerceFields]
      cases coerceFields owner provided after <;> rfl
  | cons definition rest induction =>
      simp only [List.cons_append, coerceFields, induction]
      rcases coerceField owner definition provided with _ | _ | _ <;>
        cases coerceFields owner provided rest <;>
          cases coerceFields owner provided after <;> rfl

def entry (definition : InputDefinition) (value : Option Json) : List (String × Json) :=
  value.toList.map fun value => (definition.name, value)

theorem entry_injective (definition : InputDefinition) :
    Function.Injective (entry definition) := by
  intro first second same
  cases first <;> cases second <;> simp_all [entry]

theorem toOption_coerceFields_between (before : List InputDefinition)
    (definition : InputDefinition) (after : List InputDefinition) :
    (coerceFields owner provided (before ++ definition :: after)).toOption =
      (coerceFields owner provided before).toOption.bind fun heads =>
        (coerceField owner definition provided).toOption.bind fun value =>
          (coerceFields owner provided after).toOption.map fun tails =>
            heads ++ (entry definition value ++ tails) := by
  rw [coerceFields_append, coerceFields]
  cases coerceFields owner provided before <;>
    rcases coerceField owner definition provided with _ | _ | _ <;>
      cases coerceFields owner provided after <;> rfl

theorem hangsOn_coerceObject {input : InputObjectDefinition} {definition : InputDefinition}
    (stands : definition.StandsIn input.fields) {provided : ι → List (String × Coercer)}
    (elsewhere : ∀ case name, name ≠ definition.name →
      field? name (provided case) = field? name others) :
    HangsOn (fun case => (coerceObject input (provided case)).toOption)
      fun case => (coerceField input.name definition (provided case)).toOption := by
  rcases stands.exists_values with ⟨before, after, values, different⟩
  have known (case : ι) := stands.known_iff ((provided case).map Prod.fst) (others.map Prod.fst)
    fun name other => by rw [← field?_ne_none, elsewhere case name other, field?_ne_none]
  have unchanged (case : ι) {definitions : List InputDefinition}
      (inside : definitions ⊆ before ++ after) :
      coerceFields input.name (provided case) definitions =
        coerceFields input.name others definitions :=
    coerceFields_congr fun other member => elsewhere case _ (different other (inside member))
  -- The other names are the same in every case: one that is unknown is refused in all of them.
  by_cases all : ∀ key ∈ others.map Prod.fst, key ∈ Entries.names input.fields
  · refine .of_between (coerceFields input.name others before).toOption
      (coerceFields input.name others after).toOption
      (fun heads value tails => .object (heads ++ (entry definition value ++ tails))) ?_ ?_
    · intro heads tails first second same
      rw [Json.object.injEq, List.append_cancel_left_eq, List.append_cancel_right_eq] at same
      exact entry_injective definition same
    · intro case
      rw [toOption_coerceObject, if_pos ((known case).mpr all), values,
        toOption_coerceFields_between, unchanged case (List.subset_append_left _ _),
        unchanged case (List.subset_append_right _ _)]
      simp only [Option.map_bind, Option.map_map, Function.comp_def]
  · refine .inl fun case => ?_
    beta_reduce
    rw [toOption_coerceObject, if_neg (mt (known case).mp all)]

end Offer

/-! ## One literal inside another -/

inductive Surroundings where
  | here
  | item (before : List Literal) (inner : Surroundings) (after : List Literal)
  | field (before : List (Name × Literal)) (key : Name) (inner : Surroundings)
      (after : List (Name × Literal))

namespace Surroundings

def fill (literal : Literal) : Surroundings → Literal
  | .here => literal
  | .item before inner after => .list (before ++ inner.fill literal :: after)
  | .field before key inner after => .object (before ++ (key, inner.fill literal) :: after)

theorem composite_fill (around : Surroundings) (fields : List (Name × Literal)) :
    Literal.outline.Composite (around.fill (.object fields)) := by
  cases around with
  | here => exact Outline.composite_of_fields rfl
  | item before inner after => exact Outline.composite_of_items rfl
  | field before key inner after => exact Outline.composite_of_fields rfl

end Surroundings

namespace Schema

variable {schema : Schema ρ} {bindings : Variables}

/-- Where a type is expected, what stands in the surroundings is taken for an input object of the
given name. -/
inductive Leads (schema : Schema ρ) (owner : String) : TypeRef → Surroundings → Prop
  | here : Leads schema owner (.named owner) .here
  | nonNull {inner : TypeRef} {around : Surroundings}
      (leads : Leads schema owner inner around) : Leads schema owner (.nonNull inner) around
  | item {item : TypeRef} {inner : Surroundings} (before after : List Literal)
      (leads : Leads schema owner item inner) :
      Leads schema owner (.list item) (.item before inner after)
  | only {item : TypeRef} {around : Surroundings}
      (single : ∀ before inner after, around ≠ .item before inner after)
      (leads : Leads schema owner item around) : Leads schema owner (.list item) around
  | field {name : String} {input : InputObjectDefinition} {definition : InputDefinition}
      {key : Name} {inner : Surroundings} {before : List (Name × Literal)}
      (after : List (Name × Literal)) (found : schema.type? name = some (.inputObject input))
      (stands : definition.StandsIn input.fields) (named : key.text = definition.name)
      (first : definition.name ∉ before.map fun field => field.1.text)
      (leads : Leads schema owner definition.type inner) :
      Leads schema owner (.named name) (.field before key inner after)

abbrev provides (schema : Schema ρ) (bindings : Variables) (fields : List (Name × Literal)) :
    List (String × Coercer) :=
  fields.map fun field => (field.1.text, schema.coerceLiteral bindings field.2)

theorem coerceLiteral_object {name : String} {input : InputObjectDefinition}
    (found : schema.type? name = some (.inputObject input)) (fields : List (Name × Literal)) :
    schema.coerceLiteral bindings (.object fields) (.named name) =
      Offer.coerceObject input (schema.provides bindings fields) := by
  rw [(schema.follows_coerceLiteral bindings).coerce_inputObject found rfl, List.map_map]
  rfl

section Between

variable {before after : List (Name × Literal)} {key : Name} {definition : InputDefinition}
  (named : key.text = definition.name)
include named

theorem field?_provides_of_ne (literal : Literal) {name : String} (other : name ≠ definition.name) :
    Offer.field? name (schema.provides bindings (before ++ (key, literal) :: after)) =
      Offer.field? name (schema.provides bindings (before ++ after)) := by
  simp only [provides, List.map_append, List.map_cons]
  exact Offer.field?_between (named ▸ other)

theorem coerceField_provides (first : definition.name ∉ before.map fun field => field.1.text)
    (literal : Literal) (owner : String) :
    (Offer.coerceField owner definition
        (schema.provides bindings (before ++ (key, literal) :: after))).toOption =
      (schema.coerceLiteral bindings literal definition.type).toOption.map some := by
  have fresh : definition.name ∉ (schema.provides bindings before).map Prod.fst := by
    rwa [List.map_map]
  simp only [Offer.coerceField, provides, List.map_append, List.map_cons, named,
    Offer.field?_between_self fresh, Except.toOption_map]

end Between

/-- Objects that differ in one field alone hang on what becomes of it. -/
theorem hangsOn_object {name : String} {input : InputObjectDefinition}
    {definition : InputDefinition} (found : schema.type? name = some (.inputObject input))
    (stands : definition.StandsIn input.fields) {objects : ι → List (Name × Literal)}
    {others : List (Name × Literal)}
    (elsewhere : ∀ case name, name ≠ definition.name →
      Offer.field? name (schema.provides bindings (objects case)) =
        Offer.field? name (schema.provides bindings others)) :
    HangsOn
      (fun case => (schema.coerceLiteral bindings (.object (objects case)) (.named name)).toOption)
      fun case => (Offer.coerceField input.name definition
        (schema.provides bindings (objects case))).toOption := by
  simp only [coerceLiteral_object found]
  exact Offer.hangsOn_coerceObject stands elsewhere

/-- What becomes of a literal hangs on any input object in it. -/
theorem Leads.hangsOn {owner : String} {type : TypeRef} {around : Surroundings}
    (leads : schema.Leads owner type around) (bindings : Variables)
    (objects : ι → List (Name × Literal)) :
    HangsOn
      (fun case =>
        (schema.coerceLiteral bindings (around.fill (.object (objects case))) type).toOption)
      fun case =>
        (schema.coerceLiteral bindings (.object (objects case)) (.named owner)).toOption := by
  have follows := schema.follows_coerceLiteral bindings
  induction leads with
  | here => exact .refl _
  | nonNull _ induction =>
      -- an object is not null, whatever stands in it
      simp only [follows.coerce_nonNull (Surroundings.composite_fill _ _)]
      exact induction
  | @item item inner before after _ induction =>
      refine .trans ?_ induction
      refine .of_between
        (before.mapM fun value => schema.coerceLiteral bindings value item).toOption
        (after.mapM fun value => schema.coerceLiteral bindings value item).toOption
        (fun heads value tails => .array (heads ++ value :: tails)) ?_ fun case => ?_
      · intro heads tails first second same
        simpa using same
      · rw [Surroundings.fill, follows.coerce_list rfl, Except.toOption_map,
          Except.toOption_mapM_between]
        simp only [Option.map_bind, Option.map_map, Function.comp_def]
  | @only item around single _ induction =>
      refine .trans (.of_map (fun value => .array [value]) ?_ fun case => ?_) induction
      · intro first second same
        simpa using same
      · have noItems : Literal.outline.items? (around.fill (.object (objects case))) = none := by
          cases around with
          | item before inner after => exact absurd rfl (single before inner after)
          | _ => rfl
        rw [follows.coerce_only (Surroundings.composite_fill _ _) noItems, Except.toOption_map]
  | @field name input definition key inner before after found stands named first _ induction =>
      refine (hangsOn_object found stands fun case other different =>
        field?_provides_of_ne named _ different).trans ?_
      exact .trans (.of_map some (Option.some_injective _) fun case =>
        coerceField_provides named first _ _) induction

/-! ## One argument of a field -/

section Arguments

variable {field : String} {given others : List Argument}

theorem coerceDeclared_congr {declared : List InputDefinition}
    (same : ∀ definition ∈ declared,
      schema.coerceArgument field bindings definition (Argument.find? definition.name given) =
        schema.coerceArgument field bindings definition
          (Argument.find? definition.name others)) :
    schema.coerceDeclared field bindings given declared =
      schema.coerceDeclared field bindings others declared := by
  induction declared with
  | nil => rfl
  | cons definition rest induction =>
      rw [List.forall_mem_cons] at same
      simp only [coerceDeclared, same.1, induction same.2]

theorem toOption_coerceDeclared_between (before : List InputDefinition)
    (definition : InputDefinition) (after : List InputDefinition) :
    (schema.coerceDeclared field bindings given (before ++ definition :: after)).toOption =
      (schema.coerceDeclared field bindings given before).toOption.bind fun heads =>
        (schema.coerceArgument field bindings definition
          (Argument.find? definition.name given)).toOption.bind fun value =>
          (schema.coerceDeclared field bindings given after).toOption.map fun tails =>
            heads ++ (definition.name, value) :: tails := by
  induction before with
  | nil =>
      simp only [List.nil_append, coerceDeclared]
      cases schema.coerceArgument field bindings definition
          (Argument.find? definition.name given) <;>
        cases schema.coerceDeclared field bindings given after <;> rfl
  | cons other rest induction =>
      simp only [List.cons_append, coerceDeclared, Except.toOption_bind, induction]
      cases schema.coerceArgument field bindings other (Argument.find? other.name given) <;>
        cases schema.coerceDeclared field bindings given rest <;>
          cases schema.coerceArgument field bindings definition
              (Argument.find? definition.name given) <;>
            cases schema.coerceDeclared field bindings given after <;> rfl

theorem find?_ne_none {name : String} : Argument.find? name given ≠ none ↔
    name ∈ given.map fun argument => argument.name.text := by
  rw [ne_eq, find?_eq_none, not_not]

theorem find?_between {name : String} {before after : List Argument} {argument : Argument}
    (different : name ≠ argument.name.text) :
    Argument.find? name (before ++ argument :: after) = Argument.find? name (before ++ after) := by
  simp [Argument.find?, List.find?_append, Ne.symm different]

theorem find?_between_self {name : String} {before after : List Argument} {argument : Argument}
    (named : argument.name.text = name)
    (first : name ∉ before.map fun other => other.name.text) :
    Argument.find? name (before ++ argument :: after) = some argument := by
  have absent : Argument.find? name before = none := find?_eq_none.mpr first
  rw [Argument.find?] at absent
  simp [Argument.find?, List.find?_append, absent, named]

theorem hangsOn_coerceArguments {field : FieldDefinition ρ} {definition : InputDefinition}
    (stands : definition.StandsIn field.arguments) {given : ι → List Argument}
    (elsewhere : ∀ case name, name ≠ definition.name →
      Argument.find? name (given case) = Argument.find? name others) :
    HangsOn (fun case => (schema.coerceArguments field (given case) bindings).toOption)
      fun case => (schema.coerceArgument field.name bindings definition
        (Argument.find? definition.name (given case))).toOption := by
  rcases stands.exists_values with ⟨before, after, values, different⟩
  have known (case : ι) := stands.known_iff
    ((given case).map fun argument => argument.name.text)
    (others.map fun argument => argument.name.text)
    fun name other => by rw [← find?_ne_none, elsewhere case name other, find?_ne_none]
  have unchanged (case : ι) {definitions : List InputDefinition}
      (inside : definitions ⊆ before ++ after) :
      schema.coerceDeclared field.name bindings (given case) definitions =
        schema.coerceDeclared field.name bindings others definitions :=
    coerceDeclared_congr fun other member => by
      rw [elsewhere case _ (different other (inside member))]
  by_cases all : ∀ name ∈ others.map fun argument : Argument => argument.name.text,
      name ∈ Entries.names field.arguments
  · refine .of_between (schema.coerceDeclared field.name bindings others before).toOption
      (schema.coerceDeclared field.name bindings others after).toOption
      (fun heads value tails => heads ++ (definition.name, value) :: tails) ?_ ?_
    · intro heads tails first second same
      simpa using same
    · intro case
      rw [toOption_coerceArguments, if_pos ((known case).mpr all), values,
        toOption_coerceDeclared_between, unchanged case (List.subset_append_left _ _),
        unchanged case (List.subset_append_right _ _)]
  · refine .inl fun case => ?_
    beta_reduce
    rw [toOption_coerceArguments, if_neg (mt (known case).mp all)]

def without (name : String) (given : List Argument) : List Argument :=
  given.filter fun argument => argument.name.text != name

theorem find?_without (name : String) : Argument.find? name (without name given) = none := by
  simp [find?_eq_none, without]

theorem find?_without_of_ne {name other : String} (different : other ≠ name) :
    Argument.find? other (without name given) = Argument.find? other given := by
  rw [Argument.find?, without, List.find?_filter]
  refine congrArg (fun test => List.find? test given) (funext fun argument => ?_)
  by_cases here : argument.name.text = other
  · simp [here, different]
  · simp [here]

/-- An argument that is given as a variable without a value might as well not be given. -/
theorem coerceArguments_without {field : FieldDefinition ρ} {name : String}
    (declared : name ∈ Entries.names field.arguments) (omitted : LeavesOut bindings name given) :
    schema.coerceArguments field given bindings =
      schema.coerceArguments field (without name given) bindings := by
  have unknown : (without name given).find?
        (fun argument => !Entries.contains argument.name.text field.arguments) =
      given.find? fun argument => !Entries.contains argument.name.text field.arguments := by
    rw [without, List.find?_filter]
    refine congrArg (fun test => List.find? test given) (funext fun argument => ?_)
    by_cases same : argument.name.text = name
    · simp [same, Entries.contains_iff.mpr declared]
    · simp [same]
  unfold coerceArguments
  rw [unknown, coerceDeclared_congr fun definition _ => ?_]
  by_cases same : definition.name = name
  · rw [same, find?_without, coerceArgument_of_omitted omitted, coerceArgument_of_omitted (by simp)]
  · rw [find?_without_of_ne same]

end Arguments

/-! ## Fields that are given as variables without a value -/

/-- A place in the arguments of a field where a field of an input object may be given. The object
stands somewhere in the value of an argument, which is the first of its name. -/
structure FieldSpot (schema : Schema ρ) (field : FieldDefinition ρ) where
  argument : InputDefinition
  isArgument : argument.StandsIn field.arguments
  earlier : List Argument
  holder : Argument
  later : List Argument
  holds : holder.name.text = argument.name
  first : argument.name ∉ earlier.map fun other => other.name.text
  around : Surroundings
  typeName : String
  leads : schema.Leads typeName argument.type around
  owner : InputObjectDefinition
  found : schema.type? typeName = some (.inputObject owner)
  definition : InputDefinition
  isField : definition.StandsIn owner.fields
  before : List (Name × Literal)
  key : Name
  after : List (Name × Literal)
  named : key.text = definition.name
  alone : definition.name ∉ (before ++ after).map fun other => other.1.text

namespace FieldSpot

variable {field : FieldDefinition ρ} (spot : FieldSpot schema field)

def fields : Option Literal → List (Name × Literal)
  | some literal => spot.before ++ (spot.key, literal) :: spot.after
  | none => spot.before ++ spot.after

def arguments (given : Option Literal) : List Argument :=
  spot.earlier ++
    { spot.holder with value := spot.around.fill (.object (spot.fields given)) } :: spot.later

def outcome (bindings : Variables) (given : Option Literal) : Option (Entries Json) :=
  (schema.coerceArguments field (spot.arguments given) bindings).toOption

theorem hangsOn (bindings : Variables) :
    HangsOn (spot.outcome bindings)
      fun given => (Offer.coerceField spot.owner.name spot.definition
        (schema.provides bindings (spot.fields given))).toOption := by
  have elsewhere (given : Option Literal) (name : String) (other : name ≠ spot.argument.name) :
      Argument.find? name (spot.arguments given) =
        Argument.find? name (spot.earlier ++ spot.later) :=
    find?_between (by rwa [spot.holds])
  have otherwise (given : Option Literal) (name : String) (other : name ≠ spot.definition.name) :
      Offer.field? name (schema.provides bindings (spot.fields given)) =
        Offer.field? name (schema.provides bindings (spot.before ++ spot.after)) := by
    cases given with
    | some literal => exact field?_provides_of_ne spot.named literal other
    | none => rfl
  refine (hangsOn_coerceArguments spot.isArgument elsewhere).trans ?_
  refine .trans ?_ ((spot.leads.hangsOn bindings spot.fields).trans
    (hangsOn_object spot.found spot.isField otherwise))
  refine .of_map id Function.injective_id fun given => ?_
  have held : Argument.find? spot.argument.name (spot.arguments given) =
      some { spot.holder with value := spot.around.fill (.object (spot.fields given)) } :=
    find?_between_self spot.holds spot.first
  have supplied : isOmitted bindings
      { spot.holder with value := spot.around.fill (.object (spot.fields given)) } = false :=
    isOmitted_of_composite (spot.around.composite_fill _)
  rw [held, toOption_coerceArgument_some, supplied, Option.map_id]
  rfl

end FieldSpot

/-- Whether a variable without a value gives null at a type. -/
def GivesNull (bindings : Variables) (name : String) (type : TypeRef) : Prop :=
  type.isNonNull = false ∧ ∃ binding, Entries.get? name bindings = some binding ∧
    variableFits binding.type type = true

section Unbound

variable {name : String} {type : TypeRef} (unbound : bindings.isUnbound name = true)
include unbound

theorem coerceVariable_of_givesNull (gives : GivesNull bindings name type) :
    coerceVariable bindings name type = .ok .null := by
  rcases gives with ⟨nullable, binding, found, fits⟩
  have absent : binding.value = none := by
    simpa [Variables.isUnbound, found] using unbound
  simp [coerceVariable, found, TypeShape.toNullable_of_nullable nullable, fits, absent, nullable]

theorem coerceVariable_of_not_givesNull (refused : ¬ GivesNull bindings name type) :
    (coerceVariable bindings name type).toOption = none := by
  cases found : Entries.get? name bindings with
  | none => simp [coerceVariable, found, Except.toOption]
  | some binding =>
      have absent : binding.value = none := by
        simpa [Variables.isUnbound, found] using unbound
      cases strict : type.isNonNull with
      | true =>
          simp only [coerceVariable, found, absent, strict, if_true]
          split <;> split <;> rfl
      | false =>
          have misfit : variableFits binding.type type = false :=
            Bool.eq_false_iff.mpr fun fits => refused ⟨strict, binding, found, fits⟩
          simp [coerceVariable, found, TypeShape.toNullable_of_nullable strict, misfit,
            Except.toOption]

end Unbound

namespace FieldSpot

variable {field : FieldDefinition ρ} (spot : FieldSpot schema field)

theorem toOption_coerceField_some (literal : Literal) :
    (Offer.coerceField spot.owner.name spot.definition
        (schema.provides bindings (spot.fields (some literal)))).toOption =
      (schema.coerceLiteral bindings literal spot.definition.type).toOption.map some := by
  have first : spot.definition.name ∉ spot.before.map fun other => other.1.text := fun member =>
    spot.alone (List.map_append ▸ List.mem_append_left _ member)
  exact coerceField_provides spot.named first literal _

theorem toOption_coerceField_none :
    (Offer.coerceField spot.owner.name spot.definition
        (schema.provides bindings (spot.fields none))).toOption =
      match spot.definition.default with
      | some default => some (some default)
      | none => if spot.definition.type.isNonNull then none else some none := by
  have absent : Offer.field? spot.definition.name
      (schema.provides bindings (spot.before ++ spot.after)) = none := by
    rw [Offer.field?_eq_none, List.map_map]
    exact spot.alone
  simp only [Offer.coerceField, fields, absent]
  cases spot.definition.default with
  | some default => rfl
  | none => cases spot.definition.type.isNonNull <;> rfl

variable {name : Name} (unbound : bindings.isUnbound name.text = true)
include unbound

theorem coerceField_eq_none
    (fails : (Offer.coerceField spot.owner.name spot.definition
      (schema.provides bindings (spot.fields none))).toOption = none) :
    (Offer.coerceField spot.owner.name spot.definition
      (schema.provides bindings (spot.fields (some (.reference name))))).toOption = none := by
  rw [toOption_coerceField_none] at fails
  split at fails
  · cases fails
  · split at fails
    · rename_i strict
      have refused : ¬ GivesNull bindings name.text spot.definition.type := fun gives => by
        rw [gives.1] at strict
        cases strict
      rw [toOption_coerceField_some, coerceLiteral,
        coerceVariable_of_not_givesNull unbound refused, Option.map_none]
    · cases fails

theorem coerceField_eq_some_iff :
    (∃ value, (Offer.coerceField spot.owner.name spot.definition
          (schema.provides bindings (spot.fields (some (.reference name))))).toOption =
          some value ∧
        (Offer.coerceField spot.owner.name spot.definition
          (schema.provides bindings (spot.fields none))).toOption = some value) ↔
      GivesNull bindings name.text spot.definition.type ∧
        spot.definition.default = some .null := by
  rw [toOption_coerceField_some, toOption_coerceField_none, coerceLiteral]
  by_cases gives : GivesNull bindings name.text spot.definition.type
  · rw [coerceVariable_of_givesNull unbound gives, gives.1]
    cases spot.definition.default <;> simp [Except.toOption, gives]
  · rw [coerceVariable_of_not_givesNull unbound gives]
    simp [gives]

end FieldSpot

/-- A variable without a value leaves an argument out, with or without a default. A field of an
input object it does not leave out, at any depth: it gives the field null, where the field
accepts null and the variable fits, and otherwise is refused. This comes to the same as leaving
the field out only if that fails, or if null is the default. -/
theorem unbound_leaves_out_arguments_only (schema : Schema ρ) (field : FieldDefinition ρ)
    (bindings : Variables) :
    (∀ name given, name ∈ Entries.names field.arguments → LeavesOut bindings name given →
      schema.coerceArguments field given bindings =
        schema.coerceArguments field (without name given) bindings) ∧
    ∀ (spot : FieldSpot schema field) (name : Name), bindings.isUnbound name.text = true →
      (GivesNull bindings name.text spot.definition.type →
        spot.outcome bindings (some (.reference name)) = spot.outcome bindings (some .null)) ∧
      (¬ GivesNull bindings name.text spot.definition.type →
        spot.outcome bindings (some (.reference name)) = none) ∧
      (spot.outcome bindings (some (.reference name)) = spot.outcome bindings none ↔
        spot.outcome bindings none = none ∨
          GivesNull bindings name.text spot.definition.type ∧
            spot.definition.default = some .null) := by
  refine ⟨fun name given declared omitted => coerceArguments_without declared omitted, ?_⟩
  intro spot name unbound
  have hangs := spot.hangsOn bindings
  refine ⟨fun gives => hangs.eq_of_eq ?_, fun refused => hangs.eq_none ?_, ?_⟩
  · rw [spot.toOption_coerceField_some, spot.toOption_coerceField_some, coerceLiteral,
      coerceVariable_of_givesNull unbound gives, coerceLiteral,
      Offer.coerce_of_null rfl gives.1]
  · rw [spot.toOption_coerceField_some, coerceLiteral,
      coerceVariable_of_not_givesNull unbound refused, Option.map_none]
  · rw [← spot.coerceField_eq_some_iff unbound]
    exact hangs.eq_iff (spot.coerceField_eq_none unbound)

end Schema

/-! ## Guests that are not given -/

namespace Booking

def wishes : List VariableDefinition :=
  [⟨name "guests", .named (name "Int"), none, ⟨0, 0⟩, ⟨1, 1⟩⟩,
    ⟨name "currency", .named (name "ID"), none, ⟨0, 0⟩, ⟨1, 1⟩⟩]

def unset : Variables :=
  [("guests", ⟨.named "Int", false, none⟩), ("currency", ⟨.named "ID", false, none⟩)]

theorem unset_bound : schema.coerceVariables wishes [] = .ok unset := by
  cbv

/-- The guests in the arguments `(stay: {nights: 3, guests: ...}, currency: $currency)`. -/
def guests : schema.FieldSpot price where
  argument := ⟨"stay", none, .nonNull (.named "Stay"), none⟩
  isArgument := ⟨[], _, rfl, by decide⟩
  earlier := []
  holder := ⟨name "stay", .null, ⟨0, 0⟩, ⟨1, 1⟩⟩
  later := [⟨name "currency", .reference (name "currency"), ⟨0, 0⟩, ⟨1, 1⟩⟩]
  holds := rfl
  first := List.not_mem_nil
  around := .here
  typeName := "Stay"
  leads := .nonNull .here
  owner := stay
  found := rfl
  definition := ⟨"guests", none, .named "Int", some (.integer 2)⟩
  isField := ⟨[("nights", ⟨"nights", none, .nonNull (.named "Int"), none⟩)], [], rfl, by decide⟩
  before := [(name "nights", .int 3)]
  key := name "guests"
  after := []
  named := rfl
  alone := by decide

theorem two_guests_left_out :
    schema.coerceArguments price (guests.arguments none) unset =
      .ok [("stay", .object [("nights", .integer 3), ("guests", .integer 2)]), ("codes", .null),
        ("discount", .null), ("currency", .string "EUR")] := by
  cbv

theorem unset_guests_are_null :
    schema.coerceArguments price (guests.arguments (some (.reference (name "guests")))) unset =
        schema.coerceArguments price
          (Schema.without "currency" (guests.arguments (some (.reference (name "guests"))))) unset ∧
      guests.outcome unset (some (.reference (name "guests"))) =
        guests.outcome unset (some .null) ∧
      guests.outcome unset (some (.reference (name "guests"))) ≠ guests.outcome unset none := by
  have theory := Schema.unbound_leaves_out_arguments_only schema price unset
  have gives : Schema.GivesNull unset "guests" (.named "Int") :=
    ⟨rfl, _, rfl, by simp [variableFits]⟩
  have field := theory.2 guests (name "guests") rfl
  refine ⟨theory.1 "currency" _ (by decide) ?_, field.1 gives, ?_⟩
  · rintro argument ⟨⟩
    rfl
  · rw [ne_eq, field.2.2]
    rintro (refused | ⟨_, null⟩)
    · rw [Schema.FieldSpot.outcome, two_guests_left_out] at refused
      cases refused
    · cases null

/-- A default of two guests does not count where a variable stands for them, though it counts
where they are left out. -/
theorem unset_guests_are_not_left_out :
    schema.IsBuilt ∧ schema.coerceVariables wishes [] = .ok unset ∧
      schema.coerceArguments price (guests.arguments (some (.reference (name "guests")))) unset =
        .ok [("stay", .object [("nights", .integer 3), ("guests", .null)]), ("codes", .null),
          ("discount", .null), ("currency", .string "EUR")] ∧
      schema.coerceArguments price (guests.arguments none) unset =
        .ok [("stay", .object [("nights", .integer 3), ("guests", .integer 2)]), ("codes", .null),
          ("discount", .null), ("currency", .string "EUR")] := by
  refine ⟨schema_isBuilt, unset_bound, ?_, two_guests_left_out⟩
  cbv

end Booking

end GraphQuery
