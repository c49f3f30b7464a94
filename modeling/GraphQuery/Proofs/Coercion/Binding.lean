import GraphQuery.Proofs.Coercion.Soundness
import GraphQuery.Proofs.Schema.Built
import Mathlib

/-! The variables of an operation and the arguments of a field get valid values. -/

namespace GraphQuery

namespace Schema

variable {ρ : Type} {schema : Schema ρ} {bindings : Variables}

/-! ## Binding variables -/

theorem exists_of_bindVariables {given : Entries Json} {definitions : List VariableDefinition}
    {after : Variables} (bound : schema.bindVariables given definitions bindings = .ok after)
    {name : String} {binding : Binding} (found : Entries.get? name after = some binding) :
    Entries.get? name bindings = some binding ∨ ∃ definition ∈ definitions,
      definition.name.text = name ∧ schema.bindVariable definition given = .ok binding := by
  induction definitions generalizing bindings with
  | nil =>
      cases bound
      exact .inl found
  | cons definition rest induction =>
      rcases Except.exists_of_bind bound with ⟨first, done, bound⟩
      rcases induction bound with before | ⟨other, member, named, done⟩
      · by_cases same : definition.name.text = name
        · subst same
          rw [Entries.get?_insert_self, Option.some.injEq] at before
          exact .inr ⟨definition, List.mem_cons_self, rfl, before ▸ done⟩
        · rw [Entries.get?_insert_of_ne same] at before
          exact .inl before
      · exact .inr ⟨other, List.mem_cons_of_mem definition member, named, done⟩

theorem exists_of_coerceVariables {given : Entries Json} {definitions : List VariableDefinition}
    (bound : schema.coerceVariables definitions given = .ok bindings) {name : String}
    {binding : Binding} (found : Entries.get? name bindings = some binding) :
    ∃ definition ∈ definitions, definition.name.text = name ∧
      schema.bindVariable definition given = .ok binding := by
  rcases exists_of_bindVariables bound found with before | stems
  · cases before
  · exact stems

/-- What a binding tells of a variable: a valid value of its type, or none if the type
accepts null and neither a value nor a default was given. -/
structure Binds (schema : Schema ρ) (given : Entries Json) (definition : VariableDefinition)
    (binding : Binding) : Prop where
  type : binding.type = definition.type.toTypeRef
  valid : ∀ {value}, binding.value = some value → schema.ValidInput binding.type value
  absent : binding.value = none → binding.type.isNonNull = false ∧
    Entries.get? definition.name.text given = none ∧ definition.default = none

variable {given : Entries Json} {definition : VariableDefinition}

theorem valid_of_variableValue (inputs : schema.SoundInputs) {type : TypeRef}
    {default : Option Literal} {raw : Option Json} {value : Option Json}
    (finite : ∀ literal, default = some literal → literal.isFinite = true)
    (done : schema.variableValue type default raw = .ok value) :
    (∀ {json}, value = some json → schema.ValidInput type json) ∧
      (value = none → type.isNonNull = false ∧ raw = none ∧ default = none) := by
  unfold variableValue at done
  split at done
  · -- a value is given
    split at done
    · cases done
    · split at done
      · rename_i accepted
        cases done
        refine ⟨?_, nofun⟩
        rintro _ ⟨⟩
        exact sound_coerceInput inputs _ accepted
      · cases done
  · -- the default counts
    rename_i literal
    split at done
    · rename_i accepted
      cases done
      refine ⟨?_, nofun⟩
      rintro _ ⟨⟩
      exact sound_coerceLiteral inputs Variables.sound_nil literal (finite literal rfl) accepted
    · cases done
  · split at done
    · cases done
    · rename_i nullable
      cases done
      exact ⟨nofun, fun _ => ⟨Bool.eq_false_iff.mpr nullable, rfl, rfl⟩⟩

theorem binds_of_bindVariable (inputs : schema.SoundInputs)
    (finite : ∀ literal, definition.default = some literal → literal.isFinite = true)
    {binding : Binding} (bound : schema.bindVariable definition given = .ok binding) :
    schema.Binds given definition binding := by
  simp only [bindVariable] at bound
  split at bound
  · cases bound
  · split at bound
    · cases bound
    · split at bound
      · cases bound
      · rename_i value done
        cases bound
        have found := valid_of_variableValue inputs finite done
        exact ⟨rfl, found.1, found.2⟩

def BindsAll (schema : Schema ρ) (given : Entries Json) (definitions : List VariableDefinition)
    (bindings : Variables) : Prop :=
  ∀ name binding, Entries.get? name bindings = some binding →
    ∃ definition ∈ definitions, definition.name.text = name ∧
      schema.Binds given definition binding

theorem bindsAll_of_coerceVariables (inputs : schema.SoundInputs)
    {definitions : List VariableDefinition}
    (finite : ∀ definition ∈ definitions, ∀ literal,
      definition.default = some literal → literal.isFinite = true)
    (bound : schema.coerceVariables definitions given = .ok bindings) :
    schema.BindsAll given definitions bindings := by
  intro name binding found
  rcases exists_of_coerceVariables bound found with ⟨definition, member, named, first⟩
  exact ⟨definition, member, named, binds_of_bindVariable inputs (finite definition member) first⟩

theorem mem_names_of_bindVariables {definitions : List VariableDefinition} {after : Variables}
    (bound : schema.bindVariables given definitions bindings = .ok after) {name : String}
    (named : name ∈ Entries.names bindings ∨
      ∃ definition ∈ definitions, definition.name.text = name) :
    name ∈ Entries.names after := by
  induction definitions generalizing bindings with
  | nil =>
      cases bound
      simpa using named
  | cons definition rest induction =>
      rcases Except.exists_of_bind bound with ⟨binding, _, bound⟩
      refine induction bound ?_
      rw [Entries.mem_names_insert]
      rcases named with before | ⟨other, member, same⟩
      · exact .inl (.inr before)
      · rcases List.mem_cons.mp member with rfl | member
        · exact .inl (.inl same.symm)
        · exact .inr ⟨other, member, same⟩

theorem BindsAll.sound {definitions : List VariableDefinition}
    (all : schema.BindsAll given definitions bindings) : bindings.Sound schema := by
  intro name binding found
  rcases all name binding found with ⟨definition, _, _, binds⟩
  exact ⟨binds.type ▸ definition.type.collapsed_toTypeRef, binds.valid⟩

/-! ## Arguments -/

/-- Whether no argument of a name is given, or one without a value. -/
def LeavesOut (bindings : Variables) (name : String) (arguments : List Argument) : Prop :=
  ∀ argument, Argument.find? name arguments = some argument →
    isOmitted bindings argument = true

/-- A value that a declared argument may get: a valid one, or null if the argument is
left out and has no default. -/
def ArgumentValue (schema : Schema ρ) (bindings : Variables) (arguments : List Argument)
    (declared : InputDefinition) (entry : String × Json) : Prop :=
  entry.1 = declared.name ∧
    (schema.ValidInput declared.type entry.2 ∨
      entry.2 = .null ∧ declared.default = none ∧
        LeavesOut bindings declared.name arguments)

variable {field : String} {arguments : List Argument}

theorem argumentValue_of_coerceArgument (inputs : schema.SoundInputs)
    (sound : bindings.Sound schema)
    (finite : ∀ argument ∈ arguments, argument.value.isFinite = true)
    {declared : InputDefinition}
    (defaults : ∀ default, declared.default = some default →
      schema.ValidInput declared.type default)
    {value : Json}
    (done : schema.coerceArgument field bindings declared
      (Argument.find? declared.name arguments) = .ok value) :
    schema.ArgumentValue bindings arguments declared (declared.name, value) := by
  refine ⟨rfl, ?_⟩
  unfold coerceArgument at done
  split at done
  · rename_i omitted
    cases done
    cases default : declared.default with
    | some default => exact .inl (defaults _ default)
    | none =>
        refine .inr ⟨rfl, rfl, fun argument first => ?_⟩
        simpa [first, Option.filter] using omitted
  · rename_i argument supplied
    have first := (Option.eq_some_of_filter_eq_some supplied)
    split at done
    · rename_i coerced accepted
      cases done
      have member : argument ∈ arguments := List.mem_of_find?_eq_some first
      exact .inl (sound_coerceLiteral inputs sound argument.value (finite argument member) accepted)
    · cases done

theorem argumentValues_of_coerceDeclared (inputs : schema.SoundInputs)
    (sound : bindings.Sound schema)
    (finite : ∀ argument ∈ arguments, argument.value.isFinite = true)
    {declared : List InputDefinition}
    (defaults : ∀ definition ∈ declared, ∀ default,
      definition.default = some default →
        schema.ValidInput definition.type default)
    {values : Entries Json}
    (done : schema.coerceDeclared field bindings arguments declared = .ok values) :
    List.Forall₂ (schema.ArgumentValue bindings arguments) declared values := by
  induction declared generalizing values with
  | nil =>
      cases done
      exact .nil
  | cons definition rest induction =>
      rcases Except.exists_of_bind done with ⟨value, first, done⟩
      rcases Except.exists_of_bind done with ⟨others, second, same⟩
      cases same
      exact .cons
        (argumentValue_of_coerceArgument inputs sound finite
          (defaults definition List.mem_cons_self) first)
        (induction (fun other member => defaults other (List.mem_cons_of_mem definition member))
          second)

/-- Bound variables have valid values, or none where null is accepted and nothing was
given; and so have arguments in which the variables stand, except that one that is left
out and has no default is null. -/
theorem input_coercion_sound (inputs : schema.SoundInputs)
    {definitions : List VariableDefinition}
    (finite : ∀ definition ∈ definitions, ∀ literal,
      definition.default = some literal → literal.isFinite = true)
    (bound : schema.coerceVariables definitions given = .ok bindings) :
    (∀ definition ∈ definitions,
      definition.name.text ∈ Entries.names bindings) ∧
    schema.BindsAll given definitions bindings ∧
    ∀ (field : FieldDefinition ρ) (arguments : List Argument) (values : Entries Json),
      (∀ declared ∈ field.arguments.values, ∀ default,
        declared.default = some default →
          schema.ValidInput declared.type default) →
      (∀ argument ∈ arguments, argument.value.isFinite = true) →
      schema.coerceArguments field arguments bindings = .ok values →
        List.Forall₂ (schema.ArgumentValue bindings arguments) field.arguments.values values := by
  have all : schema.BindsAll given definitions bindings :=
    bindsAll_of_coerceVariables inputs finite bound
  refine ⟨fun definition member => ?_, all, ?_⟩
  · exact mem_names_of_bindVariables bound (.inr ⟨definition, member, rfl⟩)
  · intro field arguments values defaults finite done
    unfold coerceArguments at done
    split at done
    · cases done
    · exact argumentValues_of_coerceDeclared inputs all.sound finite defaults done

end Schema

/-! ## A price that depends on the stay -/

theorem BuiltIn.coerceInput_ne_null {scalar : ScalarDefinition} (member : scalar ∈ BuiltIn.scalars)
    (value : Json) : scalar.coerceInput value ≠ .ok .null := by
  simp only [BuiltIn.scalars, List.mem_cons, List.not_mem_nil, or_false] at member
  rcases member with rfl | rfl | rfl | rfl | rfl
  · simp only [BuiltIn.coerceInt]
    split
    · split <;> simp
    · simp
  · simp only [BuiltIn.coerceFloat]
    split <;> simp
  · cases value <;> simp [BuiltIn.coerceInputString]
  · cases value <;> simp [BuiltIn.coerceBoolean]
  · cases value <;> simp [BuiltIn.coerceId]

namespace Booking

def stay : InputObjectDefinition where
  name := "Stay"
  description := none
  fields :=
    [("nights", ⟨"nights", none, .nonNull (.named "Int"), none⟩),
      ("guests", ⟨"guests", none, .named "Int", some (.integer 2)⟩)]

def price : FieldDefinition Unit where
  name := "price"
  description := none
  type := .named "Int"
  arguments :=
    [("stay", ⟨"stay", none, .nonNull (.named "Stay"), none⟩),
      ("codes", ⟨"codes", none, .list (.named "ID"), none⟩),
      ("discount", ⟨"discount", none, .named "Float", none⟩),
      ("currency", ⟨"currency", none, .nonNull (.named "ID"), some (.string "EUR")⟩)]
  resolver := none

def query : ObjectDefinition Unit where
  name := "Query"
  description := none
  fields := [("price", price)]
  implements := []

def builder : SchemaBuilder Unit :=
  ((SchemaBuilder.initial.add (.inputObject stay)).add (.object query)).withRoot .query "Query"

def schema : Schema Unit where
  types := builder.types
  query := "Query"
  mutation := none
  subscription := none

theorem schema_isBuilt : schema.IsBuilt :=
  ⟨builder, .withRoot .query "Query" (.add _ (.add _ .initial)), rfl⟩

theorem types_eq : schema.types =
    (BuiltIn.scalars.map fun scalar => (scalar.name, .scalar scalar)) ++
      [("Stay", .inputObject stay), ("Query", .object query)] :=
  rfl

theorem soundInputs : schema.SoundInputs where
  scalars := by
    intro name scalar found value _
    have member := Entries.mem_of_get? found
    rw [types_eq] at member
    simp only [List.mem_append, List.mem_map, List.mem_cons, Prod.mk.injEq, reduceCtorEq,
      and_false, List.not_mem_nil, or_false, TypeDefinition.scalar.injEq] at member
    rcases member with ⟨_, member, _, rfl⟩
    exact BuiltIn.coerceInput_ne_null member value
  enums := by
    intro name enum found
    have member := Entries.mem_of_get? found
    simp [types_eq] at member
  defaults := by
    intro name input found declared inside default given
    have member := Entries.mem_of_get? found
    simp only [types_eq, List.mem_append, List.mem_map, List.mem_cons, Prod.mk.injEq, reduceCtorEq,
      and_false, exists_false, List.not_mem_nil, or_false, false_or,
      TypeDefinition.inputObject.injEq] at member
    rcases member with ⟨_, rfl⟩
    simp only [stay, Entries.values, List.map_cons, List.map_nil, List.mem_cons,
      List.not_mem_nil, or_false] at inside
    rcases inside with rfl | rfl
    · cases given
    · cases given
      exact .scalar rfl (show ScalarDefinition.coerceInput _ (.integer 2) = _ from rfl)

theorem soundDefaults : ∀ declared ∈ price.arguments.values, ∀ default,
    declared.default = some default →
      schema.ValidInput declared.type default := by
  simp only [price, Entries.values, List.map_cons, List.map_nil, List.forall_mem_cons]
  refine ⟨nofun, nofun, nofun, ?_, by simp⟩
  rintro _ ⟨⟩
  exact .nonNull (by simp) (.scalar rfl
    (show ScalarDefinition.coerceInput _ (.string "EUR") = _ from rfl))

/-- A field decides itself what it makes of an argument that is left out, even where its
type refuses null. -/
theorem left_out_argument_is_null :
    schema.IsBuilt ∧ schema.SoundInputs ∧
      (∀ declared ∈ price.arguments.values, ∀ default, declared.default = some default →
        schema.ValidInput declared.type default) ∧
      schema.coerceVariables [] [] = .ok [] ∧
      schema.coerceArguments price [] [] =
        .ok [("stay", .null), ("codes", .null), ("discount", .null),
          ("currency", .string "EUR")] ∧
      ¬ List.Forall₂ (fun declared entry => schema.ValidInput declared.type entry.2)
        price.arguments.values
        [("stay", .null), ("codes", .null), ("discount", .null), ("currency", .string "EUR")] := by
  refine ⟨schema_isBuilt, soundInputs, soundDefaults, rfl, rfl, fun valid => ?_⟩
  cases valid with
  | cons first _ => exact Schema.not_validInput_nonNull_null _ first

def name (text : String) : Name := ⟨text, ⟨0, 0⟩, ⟨1, 1⟩⟩

def definitions : List VariableDefinition :=
  [⟨name "nights", .named (name "Int"), some (.int 3), ⟨0, 0⟩, ⟨1, 1⟩⟩,
    ⟨name "code", .nonNull (.named (name "ID")), none, ⟨0, 0⟩, ⟨1, 1⟩⟩]

def half : Binary64 := .finite false 4503599627370496 (-53) (by decide)

/-- The arguments `(stay: {nights: $nights}, codes: $code, discount: 0.5)`. -/
def arguments : List Argument :=
  [⟨name "stay", .object [(name "nights", .reference (name "nights"))], ⟨0, 0⟩, ⟨1, 1⟩⟩,
    ⟨name "codes", .reference (name "code"), ⟨0, 0⟩, ⟨1, 1⟩⟩,
    ⟨name "discount", .float half, ⟨0, 0⟩, ⟨1, 1⟩⟩]

def given : Entries Json := [("code", .string "early")]

def bindings : Variables :=
  [("nights", ⟨.named "Int", true, some (.integer 3)⟩),
    ("code", ⟨.nonNull (.named "ID"), false, some (.string "early")⟩)]

theorem bound : schema.coerceVariables definitions given = .ok bindings := by
  cbv

def values : Entries Json :=
  [("stay", .object [("nights", .integer 3), ("guests", .integer 2)]),
    ("codes", .array [.string "early"]), ("discount", .float half), ("currency", .string "EUR")]

theorem coerced : schema.coerceArguments price arguments bindings = .ok values := by
  cbv

theorem valid_for_a_stay :
    schema.coerceVariables definitions given = .ok bindings ∧
      schema.coerceArguments price arguments bindings = .ok values ∧
      schema.BindsAll given definitions bindings ∧
      List.Forall₂ (schema.ArgumentValue bindings arguments) price.arguments.values values := by
  have finite : ∀ definition ∈ definitions, ∀ literal,
      definition.default = some literal → literal.isFinite = true := by
    simp [definitions, Literal.isFinite]
  have finiteArguments : ∀ argument ∈ arguments,
      argument.value.isFinite = true := by
    simp [arguments, Literal.isFinite, Literal.fieldsAreFinite, half, Binary64.isFinite]
  have sound := Schema.input_coercion_sound soundInputs finite bound
  exact ⟨bound, coerced, sound.2.1,
    sound.2.2 price arguments values soundDefaults finiteArguments coerced⟩

end Booking

end GraphQuery
