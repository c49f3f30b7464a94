import GraphQuery.Coercion.Arguments
import GraphQuery.Proofs.Schema.References

/-! Object types in the place of interfaces. What a schema checks of an object type when it is
built is enough for every field of an interface to be asked of the object in the same words: the
arguments that the interface takes mean the same there, and no others have to be given. -/

namespace GraphQuery

variable {ρ : Type}

/-- Every argument of a field stands under its own name, and no name stands twice. -/
structure FieldDefinition.ArgumentsKeyed (field : FieldDefinition ρ) : Prop where
  name_eq : ∀ entry ∈ field.arguments, entry.2.name = entry.1
  nodup : (Entries.names field.arguments).Nodup

def Schema.ArgumentsKeyed (schema : Schema ρ) : Prop :=
  ∀ {name type fields}, schema.type? name = some type → type.fields? = some fields →
    ∀ field ∈ fields.values, field.ArgumentsKeyed

namespace FieldDefinition

variable {field declared : FieldDefinition ρ}

theorem ArgumentsKeyed.get?_name (keyed : field.ArgumentsKeyed) {argument : InputDefinition}
    (member : argument ∈ field.arguments.values) :
    Entries.get? argument.name field.arguments = some argument := by
  obtain ⟨⟨name, _⟩, inside, rfl⟩ := List.mem_map.mp member
  rw [keyed.name_eq _ inside]
  exact Entries.get?_of_mem keyed.nodup inside

theorem ArgumentsKeyed.map_name (keyed : field.ArgumentsKeyed) :
    field.arguments.values.map InputDefinition.name = Entries.names field.arguments := by
  rw [Entries.values, List.map_map]
  exact List.map_congr_left keyed.name_eq

theorem exists_of_acceptsArgumentsOf (accepts : field.acceptsArgumentsOf declared = true)
    {name : String} {argument : InputDefinition}
    (found : Entries.get? name declared.arguments = some argument) :
    ∃ own, Entries.get? name field.arguments = some own ∧ own.type = argument.type := by
  rw [acceptsArgumentsOf, Bool.and_eq_true, List.all_eq_true] at accepts
  have accepted := accepts.1 _ (Entries.mem_of_get? found)
  cases known : Entries.get? name field.arguments with
  | none => simp [known] at accepted
  | some own => exact ⟨own, rfl, by simpa [known] using accepted⟩

end FieldDefinition

/-! ## Objects that implement interfaces -/

namespace SchemaBuilder

theorem conforms_of_conformance {object : ObjectDefinition ρ} {name : String}
    {expected : FieldDefinition ρ} (conforms : conformance object name expected = .ok ()) :
    ∃ actual, Entries.get? name object.fields = some actual ∧ actual.type = expected.type ∧
      actual.acceptsArgumentsOf expected = true := by
  unfold conformance at conforms
  split at conforms
  · cases conforms
  · rename_i actual found
    split at conforms
    · cases conforms
    · rename_i same
      split at conforms
      · rename_i accepts
        exact ⟨actual, found, not_not.mp same, accepts⟩
      · cases conforms

theorem conformance_of_checkConformance {types : Entries (TypeDefinition ρ)}
    {object : ObjectDefinition ρ} {interfaceName : String} {interface : InterfaceDefinition ρ}
    (known : Entries.get? interfaceName types = some (.interface interface))
    (checked : checkConformance types object interfaceName = .ok ()) {name : String}
    {expected : FieldDefinition ρ} (member : (name, expected) ∈ interface.fields) :
    conformance object name expected = .ok () := by
  obtain ⟨target, found, checked⟩ := Except.exists_of_bind checked
  simp only [lookup, known] at found
  cases found
  have each := Except.eq_ok_of_forM checked member
  cases conforms : conformance object name expected with
  | ok => rfl
  | error reason => simp [conforms] at each

end SchemaBuilder

theorem Schema.IsBuilt.exists_field_of_implements {schema : Schema ρ} (built : schema.IsBuilt)
    {objectName interfaceName fieldName : String} {object : ObjectDefinition ρ}
    {interface : InterfaceDefinition ρ} {expected : FieldDefinition ρ}
    (isObject : schema.type? objectName = some (.object object))
    (implements : interfaceName ∈ object.implements)
    (isInterface : schema.type? interfaceName = some (.interface interface))
    (declared : Entries.get? fieldName interface.fields = some expected) :
    ∃ actual, Entries.get? fieldName object.fields = some actual ∧
      actual.type = expected.type ∧ actual.acceptsArgumentsOf expected = true := by
  obtain ⟨builder, _, built⟩ := built
  have passes := SchemaBuilder.passes_of_build built
  rw [type?, passes.types] at isObject isInterface
  have member : .object object ∈ builder.types.values :=
    List.mem_map.mpr ⟨_, Entries.mem_of_get? isObject, rfl⟩
  obtain ⟨⟨⟩, _, conforms⟩ := Except.exists_of_bind (passes.checked _ member)
  exact SchemaBuilder.conforms_of_conformance
    (SchemaBuilder.conformance_of_checkConformance isInterface
      (Except.eq_ok_of_forM conforms implements) (Entries.mem_of_get? declared))

/-! ## Arguments -/

namespace Schema

variable {schema : Schema ρ} {field : String} {bindings : Variables}

theorem coerceArgument_eq_ok_iff {argument : Argument}
    (supplied : isOmitted bindings argument = false) (declared : InputDefinition) (value : Json) :
    schema.coerceArgument field bindings declared (some argument) = .ok value ↔
      schema.coerceLiteral bindings argument.value declared.type = .ok value := by
  simp only [coerceArgument, Option.filter, supplied, Bool.not_false, if_true]
  cases schema.coerceLiteral bindings argument.value declared.type <;> simp

theorem coerceArgument_of_omitted {given : Option Argument}
    (omitted : ∀ argument, given = some argument → isOmitted bindings argument = true)
    (declared : InputDefinition) :
    schema.coerceArgument field bindings declared given =
      .ok (declared.default.getD .null) := by
  cases given with
  | none => rfl
  | some argument => simp [coerceArgument, Option.filter, omitted argument rfl]

variable {given : List Argument} {declarations : List InputDefinition}

theorem exists_coerceDeclared (each : ∀ declared ∈ declarations, ∃ value,
      schema.coerceArgument field bindings declared (Argument.find? declared.name given) =
        .ok value) :
    ∃ values, schema.coerceDeclared field bindings given declarations = .ok values := by
  induction declarations with
  | nil => exact ⟨[], rfl⟩
  | cons declared rest induction =>
      rw [List.forall_mem_cons] at each
      obtain ⟨⟨value, first⟩, others⟩ := each
      obtain ⟨values, second⟩ := induction others
      refine ⟨(declared.name, value) :: values, ?_⟩
      rw [coerceDeclared, first, Except.ok_bind, second]
      rfl

theorem exists_get?_of_coerceDeclared {values : Entries Json}
    (done : schema.coerceDeclared field bindings given declarations = .ok values)
    (distinct : (declarations.map InputDefinition.name).Nodup) {declared : InputDefinition}
    (member : declared ∈ declarations) :
    ∃ value, Entries.get? declared.name values = some value ∧
      schema.coerceArgument field bindings declared (Argument.find? declared.name given) =
        .ok value := by
  induction declarations generalizing values with
  | nil => cases member
  | cons first rest induction =>
      obtain ⟨value, head, done⟩ := Except.exists_of_bind done
      obtain ⟨others, tail, same⟩ := Except.exists_of_bind done
      cases same
      rw [List.map_cons, List.nodup_cons] at distinct
      rcases List.mem_cons.mp member with rfl | member
      · exact ⟨value, if_pos rfl, head⟩
      · have different : first.name ≠ declared.name := fun same =>
          distinct.1 (same ▸ List.mem_map_of_mem member)
        obtain ⟨found, known, coerced⟩ := induction tail distinct.2 member
        exact ⟨found, (if_neg different).trans known, coerced⟩

theorem exists_value_of_declared {field : FieldDefinition ρ} (keyed : field.ArgumentsKeyed)
    {values : Entries Json}
    (done : schema.coerceDeclared field.name bindings given field.arguments.values = .ok values)
    {name : String} {declared : InputDefinition}
    (found : Entries.get? name field.arguments = some declared) :
    ∃ value, Entries.get? name values = some value ∧
      schema.coerceArgument field.name bindings declared (Argument.find? name given) =
        .ok value := by
  have member := Entries.mem_of_get? found
  have looked := exists_get?_of_coerceDeclared done (keyed.map_name ▸ keyed.nodup)
    (List.mem_map.mpr ⟨_, member, rfl⟩)
  rwa [keyed.name_eq _ member] at looked

theorem coerceArguments_eq_ok_iff {field : FieldDefinition ρ} {values : Entries Json} :
    schema.coerceArguments field given bindings = .ok values ↔
      (∀ argument ∈ given, argument.name.text ∈ Entries.names field.arguments) ∧
        schema.coerceDeclared field.name bindings given field.arguments.values = .ok values := by
  unfold coerceArguments
  cases unknown : given.find? fun argument =>
      !Entries.contains argument.name.text field.arguments with
  | some argument =>
      have outside := List.find?_some unknown
      have member := List.mem_of_find?_eq_some unknown
      rw [Bool.not_eq_true', Bool.eq_false_iff, ne_eq, Entries.contains_iff] at outside
      simp only [reduceCtorEq, false_iff, not_and]
      exact fun all => absurd (all argument member) outside
  | none =>
      have all := List.find?_eq_none.mp unknown
      simp only [Bool.not_eq_true', Bool.not_eq_false, Entries.contains_iff] at all
      exact (and_iff_right all).symm

section Accepted

variable {expected actual : FieldDefinition ρ} (keyed : expected.ArgumentsKeyed)
  (accepts : actual.acceptsArgumentsOf expected = true)
include accepts

theorem mem_names_of_accepts {name : String} (member : name ∈ Entries.names expected.arguments) :
    name ∈ Entries.names actual.arguments := by
  obtain ⟨declared, found⟩ := Entries.exists_get?_of_mem_names member
  obtain ⟨own, ownFound, _⟩ := FieldDefinition.exists_of_acceptsArgumentsOf accepts found
  exact Entries.mem_names_of_get? ownFound

include keyed

theorem exists_own_of_given {values : Entries Json}
    (done : schema.coerceArguments expected given bindings = .ok values) {name : String}
    {argument : Argument} (first : Argument.find? name given = some argument)
    (supplied : isOmitted bindings argument = false) (field : String) :
    ∃ value own, Entries.get? name values = some value ∧
      Entries.get? name actual.arguments = some own ∧
        schema.coerceArgument field bindings own (some argument) = .ok value := by
  obtain ⟨known, done⟩ := coerceArguments_eq_ok_iff.mp done
  have named : argument.name.text = name := by simpa using List.find?_some first
  obtain ⟨declared, found⟩ := Entries.exists_get?_of_mem_names
    (named ▸ known argument (List.mem_of_find?_eq_some first))
  obtain ⟨own, ownFound, sameType⟩ := FieldDefinition.exists_of_acceptsArgumentsOf accepts found
  obtain ⟨value, lookedUp, coerced⟩ := exists_value_of_declared keyed done found
  rw [first, coerceArgument_eq_ok_iff supplied, ← sameType] at coerced
  exact ⟨value, own, lookedUp, ownFound, (coerceArgument_eq_ok_iff supplied own value).mpr coerced⟩

/-- Arguments that are right for a field are right for every field that accepts them. -/
theorem coerceArguments_of_accepts (ownKeyed : actual.ArgumentsKeyed) {values : Entries Json}
    (done : schema.coerceArguments expected given bindings = .ok values) :
    ∃ ownValues, schema.coerceArguments actual given bindings = .ok ownValues ∧
      (∀ name argument, Argument.find? name given = some argument →
        isOmitted bindings argument = false →
          ∃ value, Entries.get? name values = some value ∧
            Entries.get? name ownValues = some value) ∧
      ∀ name own, Entries.get? name actual.arguments = some own →
        name ∉ Entries.names expected.arguments →
          Entries.get? name ownValues = some (own.default.getD .null) := by
  have known := (coerceArguments_eq_ok_iff.mp done).1
  have each : ∀ own ∈ actual.arguments.values, ∃ value,
      schema.coerceArgument actual.name bindings own (Argument.find? own.name given) =
        .ok value := by
    intro own member
    by_cases supplied : ∃ argument, Argument.find? own.name given = some argument ∧
        isOmitted bindings argument = false
    · obtain ⟨argument, first, supplied⟩ := supplied
      obtain ⟨value, _, _, found, coerced⟩ :=
        exists_own_of_given keyed accepts done first supplied actual.name
      rw [ownKeyed.get?_name member, Option.some.injEq] at found
      exact ⟨value, by rw [first, found, coerced]⟩
    · simp only [not_exists, not_and, Bool.not_eq_false] at supplied
      exact ⟨_, coerceArgument_of_omitted supplied own⟩
  obtain ⟨ownValues, ownDone⟩ := exists_coerceDeclared each
  refine ⟨ownValues, coerceArguments_eq_ok_iff.mpr ⟨fun argument member => ?_, ownDone⟩, ?_, ?_⟩
  · exact mem_names_of_accepts accepts (known argument member)
  · intro name argument first supplied
    obtain ⟨value, own, looked, found, coerced⟩ :=
      exists_own_of_given keyed accepts done first supplied actual.name
    obtain ⟨ownValue, ownLooked, ownCoerced⟩ := exists_value_of_declared ownKeyed ownDone found
    rw [first, coerced, Except.ok.injEq] at ownCoerced
    exact ⟨value, looked, ownCoerced ▸ ownLooked⟩
  · intro name own found extra
    obtain ⟨value, looked, coerced⟩ := exists_value_of_declared ownKeyed ownDone found
    have absent : Argument.find? name given = none :=
      List.find?_eq_none.mpr fun argument member same =>
        extra (beq_iff_eq.mp same ▸ known argument member)
    rw [absent, coerceArgument_of_omitted (by simp), Except.ok.injEq] at coerced
    exact coerced ▸ looked

end Accepted

/-! ## Fields of interfaces -/

/-- An object type that implements an interface has all its fields, with the same types. What
is accepted for the arguments of such a field is accepted by the object too: those that are
given have the same values, and those that only the object knows have their defaults or are
null. -/
theorem interface_fields_are_answered (built : schema.IsBuilt) (keyed : schema.ArgumentsKeyed)
    {objectName interfaceName fieldName : String} {interface : InterfaceDefinition ρ}
    {expected : FieldDefinition ρ} (implements : schema.implements objectName interfaceName = true)
    (isInterface : schema.type? interfaceName = some (.interface interface))
    (declared : Entries.get? fieldName interface.fields = some expected) :
    ∃ object actual, schema.object? objectName = some object ∧
      Entries.get? fieldName object.fields = some actual ∧ actual.type = expected.type ∧
      ∀ given bindings values, schema.coerceArguments expected given bindings = .ok values →
        ∃ ownValues, schema.coerceArguments actual given bindings = .ok ownValues ∧
          (∀ name argument, Argument.find? name given = some argument →
            isOmitted bindings argument = false →
              ∃ value, Entries.get? name values = some value ∧
                Entries.get? name ownValues = some value) ∧
          ∀ name own, Entries.get? name actual.arguments = some own →
            name ∉ Entries.names expected.arguments →
              Entries.get? name ownValues = some (own.default.getD .null) := by
  unfold Schema.implements at implements
  split at implements
  next object isObject =>
    have known := object?_eq_some_iff.mp isObject
    obtain ⟨actual, found, sameType, accepts⟩ := built.exists_field_of_implements known
      (List.contains_iff_mem.mp implements) isInterface declared
    have ofInterface := keyed isInterface rfl expected
      (List.mem_map.mpr ⟨_, Entries.mem_of_get? declared, rfl⟩)
    have ofObject := keyed known rfl actual (List.mem_map.mpr ⟨_, Entries.mem_of_get? found, rfl⟩)
    exact ⟨object, actual, isObject, found, sameType, fun _ _ _ done =>
      coerceArguments_of_accepts ofInterface accepts ofObject done⟩
  next => cases implements

end Schema

/-! ## The price of bread -/

namespace Bakery

def priceOfGoods : FieldDefinition Unit where
  name := "price"
  description := none
  type := .named "Int"
  arguments :=
    [("currency", ⟨"currency", none, .nonNull (.named "String"), none⟩),
      ("day", ⟨"day", none, .named "Int", none⟩)]
  resolver := none

def goods : InterfaceDefinition Unit where
  name := "Goods"
  description := none
  fields := [("price", priceOfGoods)]
  resolveType := none

def priceOfBread : FieldDefinition Unit where
  name := "price"
  description := none
  type := .named "Int"
  arguments :=
    [("day", ⟨"day", none, .named "Int", some (.integer 1)⟩),
      ("currency", ⟨"currency", none, .nonNull (.named "String"), none⟩),
      ("rounded", ⟨"rounded", none, .nonNull (.named "Boolean"), some (.boolean true)⟩)]
  resolver := none

def bread : ObjectDefinition Unit where
  name := "Bread"
  description := none
  fields := [("price", priceOfBread)]
  implements := ["Goods"]

def builder : SchemaBuilder Unit :=
  ((SchemaBuilder.initial.add (.interface goods)).add (.object bread)).withRoot .query "Bread"

def schema : Schema Unit where
  types := builder.types
  query := "Bread"
  mutation := none
  subscription := none

theorem schema_isBuilt : schema.IsBuilt :=
  ⟨builder, .withRoot .query "Bread" (.add _ (.add _ .initial)), rfl⟩

theorem argumentsKeyed_price : priceOfGoods.ArgumentsKeyed ∧ priceOfBread.ArgumentsKeyed := by
  constructor <;> constructor <;> simp [priceOfGoods, priceOfBread, Entries.names]

theorem schema_argumentsKeyed : schema.ArgumentsKeyed := by
  intro name type fields found same field member
  have types : schema.types = (BuiltIn.scalars.map fun scalar => (scalar.name, .scalar scalar)) ++
      [("Goods", .interface goods), ("Bread", .object bread)] := rfl
  have inside := Entries.mem_of_get? found
  rw [types] at inside
  rcases List.mem_append.mp inside with scalar | other
  · obtain ⟨_, _, isScalar⟩ := List.mem_map.mp scalar
    cases isScalar
    cases same
  · simp only [List.mem_cons, Prod.mk.injEq, List.not_mem_nil, or_false] at other
    rcases other with ⟨rfl, rfl⟩ | ⟨rfl, rfl⟩ <;> cases same
    · cases List.mem_singleton.mp member
      exact argumentsKeyed_price.1
    · cases List.mem_singleton.mp member
      exact argumentsKeyed_price.2

def name (text : String) : Name := ⟨text, ⟨0, 0⟩, ⟨1, 1⟩⟩

def given : List Argument :=
  [⟨name "currency", .string "EUR", ⟨0, 0⟩, ⟨1, 1⟩⟩,
    ⟨name "day", .reference (name "day"), ⟨0, 0⟩, ⟨1, 1⟩⟩]

def bindings : Variables := [("day", ⟨.named "Int", false, none⟩)]

theorem bread_is_priced_like_goods :
    schema.implements "Bread" "Goods" = true ∧
      schema.coerceArguments priceOfGoods given bindings =
        .ok [("currency", .string "EUR"), ("day", .null)] ∧
      ∃ object actual, schema.object? "Bread" = some object ∧
        Entries.get? "price" object.fields = some actual ∧ actual.type = .named "Int" ∧
        ∃ values, schema.coerceArguments actual given bindings = .ok values ∧
          Entries.get? "currency" values = some (.string "EUR") ∧
          Entries.get? "rounded" values = some (.boolean true) := by
  have implements : schema.implements "Bread" "Goods" = true := rfl
  have coerced : schema.coerceArguments priceOfGoods given bindings =
      .ok [("currency", .string "EUR"), ("day", .null)] := rfl
  obtain ⟨object, actual, isObject, found, sameType, answers⟩ :=
    Schema.interface_fields_are_answered schema_isBuilt schema_argumentsKeyed implements
      (show schema.type? "Goods" = some (.interface goods) from rfl)
      (show Entries.get? "price" goods.fields = some priceOfGoods from rfl)
  obtain ⟨values, accepted, same, extra⟩ := answers given bindings _ coerced
  obtain ⟨_, known, currency⟩ := same "currency" _ rfl rfl
  cases known
  cases isObject
  cases found
  exact ⟨implements, coerced, bread, priceOfBread, rfl, rfl, sameType, values, accepted, currency,
    extra "rounded" _ rfl (by simp [priceOfGoods, Entries.names])⟩

end Bakery

end GraphQuery
