import GraphQuery.Proofs.Schema.References
import Mathlib.Data.List.Induction
import Mathlib.Data.List.Nodup

/-! Definitions may be added in any order. A builder that is told the same in another order
accepts it too, and the schemas differ in nothing but the order of their types. -/

namespace GraphQuery

variable {ρ : Type}

/-! ## Entries in another order -/

namespace Entries

variable {α : Type}

theorem nodup_of_names {entries : Entries α} (distinct : (names entries).Nodup) :
    entries.Nodup :=
  List.Nodup.of_map _ distinct

theorem perm_of_get?_eq {entries others : Entries α} (distinct : (names entries).Nodup)
    (distinctOthers : (names others).Nodup)
    (same : ∀ name, get? name entries = get? name others) : entries.Perm others := by
  refine (List.perm_ext_iff_of_nodup (nodup_of_names distinct)
    (nodup_of_names distinctOthers)).mpr ?_
  rintro ⟨name, value⟩
  constructor
  · intro member
    exact mem_of_get? ((same name).symm.trans (get?_of_mem distinct member))
  · intro member
    exact mem_of_get? ((same name).trans (get?_of_mem distinctOthers member))

end Entries

namespace SchemaBuilder

/-! ## What a builder is told -/

inductive Call (ρ : Type) where
  | add (type : TypeDefinition ρ)
  | withRoot (operation : OperationKind) (name : String)

def Call.defined? : Call ρ → Option String
  | .add type => some type.name
  | .withRoot _ _ => none

def call (builder : SchemaBuilder ρ) : Call ρ → SchemaBuilder ρ
  | .add type => builder.add type
  | .withRoot operation name => builder.withRoot operation name

def ofCalls (calls : List (Call ρ)) : SchemaBuilder ρ := calls.foldl call .initial

theorem ofCalls_concat (calls : List (Call ρ)) (last : Call ρ) :
    ofCalls (calls ++ [last]) = (ofCalls calls).call last := by
  simp [ofCalls]

theorem assembled_ofCalls (calls : List (Call ρ)) : (ofCalls calls).Assembled := by
  induction calls using List.reverseRecOn with
  | nil => exact .initial
  | append_singleton calls last induction =>
      rw [ofCalls_concat]
      cases last with
      | add type => exact .add type induction
      | withRoot operation name => exact .withRoot operation name induction

/-- No name is defined twice, and no operation has two roots. -/
structure Definite (calls : List (Call ρ)) : Prop where
  names : (calls.filterMap Call.defined?).Nodup
  roots : ∀ {operation first second}, Call.withRoot operation first ∈ calls →
    Call.withRoot operation second ∈ calls → first = second

namespace Definite

variable {calls others : List (Call ρ)}

theorem perm (definite : Definite calls) (rearranged : calls.Perm others) : Definite others where
  names := (rearranged.filterMap _).nodup_iff.mp definite.names
  roots first second :=
    definite.roots (rearranged.mem_iff.mpr first) (rearranged.mem_iff.mpr second)

theorem init {last : Call ρ} (definite : Definite (calls ++ [last])) : Definite calls where
  names := by
    have names := definite.names
    rw [List.filterMap_append, List.nodup_append] at names
    exact names.1
  roots first second :=
    definite.roots (List.mem_append_left _ first) (List.mem_append_left _ second)

theorem fresh {type : TypeDefinition ρ} (definite : Definite (calls ++ [.add type])) :
    ∀ other, Call.add other ∈ calls → other.name ≠ type.name := by
  intro other member
  have names := definite.names
  rw [List.filterMap_append, List.nodup_append] at names
  exact names.2.2 other.name (List.mem_filterMap.mpr ⟨_, member, rfl⟩) type.name
    (List.mem_singleton_self _)

end Definite

/-! ## What a builder holds -/

/-- A builder holds what it has been told, and the scalars of which it has not been told
anything else. -/
structure Holds (builder : SchemaBuilder ρ) (calls : List (Call ρ)) : Prop where
  types : ∀ {name type}, Entries.get? name builder.types = some type ↔
    (Call.add type ∈ calls ∧ type.name = name) ∨
      (∀ other, Call.add other ∈ calls → other.name ≠ name) ∧
        Entries.get? name (initial : SchemaBuilder ρ).types = some type
  replaced : ∀ name ∈ builder.replaced, ∃ type, Call.add type ∈ calls ∧ type.name = name
  duplicates : builder.duplicates = []
  roots : ∀ {operation name},
    builder.rootName? operation = some name ↔ Call.withRoot operation name ∈ calls

theorem isScalarName_of_initial {name : String} {type : TypeDefinition ρ}
    (found : Entries.get? name (initial : SchemaBuilder ρ).types = some type) :
    BuiltIn.isScalarName name = true := by
  obtain ⟨scalar, member, same⟩ := List.mem_map.mp (Entries.mem_of_get? found)
  cases same
  exact List.any_eq_true.mpr ⟨scalar, member, beq_self_eq_true _⟩

@[simp] theorem rootName?_withRoot (builder : SchemaBuilder ρ) (operation other : OperationKind)
    (name : String) : (builder.withRoot operation name).rootName? other =
      if other = operation then some name else builder.rootName? other := by
  cases operation <;> cases other <;> rfl

namespace Holds

variable {builder : SchemaBuilder ρ} {calls : List (Call ρ)}

theorem add_eq (holds : builder.Holds calls) {type : TypeDefinition ρ}
    (fresh : ∀ other, Call.add other ∈ calls → other.name ≠ type.name) :
    ∃ replaced, (∀ name ∈ replaced, name ∈ builder.replaced ∨ name = type.name) ∧
      builder.add type =
        { builder with
          types := Entries.insert type.name type builder.types
          replaced := replaced } := by
  have unreplaced : type.name ∉ builder.replaced := by
    intro member
    obtain ⟨other, told, same⟩ := holds.replaced _ member
    exact fresh other told same
  by_cases scalar : BuiltIn.isScalarName type.name = true
  · refine ⟨builder.replaced ++ [type.name], by simp, ?_⟩
    simp [add, scalar, unreplaced]
  · have absent : ¬ Entries.contains type.name builder.types = true := by
      intro contained
      obtain ⟨known, found⟩ := Option.ne_none_iff_exists'.mp fun missing =>
        Entries.get?_eq_none_iff.mp missing (Entries.contains_iff.mp contained)
      rcases holds.types.mp found with ⟨told, same⟩ | ⟨_, first⟩
      · exact fresh known told same
      · exact scalar (isScalarName_of_initial first)
    refine ⟨builder.replaced, fun name member => .inl member, ?_⟩
    simp [add, scalar, absent]

theorem add (holds : builder.Holds calls) {type : TypeDefinition ρ}
    (fresh : ∀ other, Call.add other ∈ calls → other.name ≠ type.name) :
    (builder.add type).Holds (calls ++ [.add type]) := by
  obtain ⟨replaced, known, same⟩ := holds.add_eq fresh
  rw [same]
  constructor
  case types =>
    intro name other
    by_cases here : type.name = name
    · subst here
      have alone : ∀ {other}, Call.add other ∈ calls ++ [.add type] →
          other.name = type.name → other = type := by
        intro other member equal
        rcases List.mem_append.mp member with before | last
        · exact absurd equal (fresh other before)
        · cases List.mem_singleton.mp last
          rfl
      rw [Entries.get?_insert_self, Option.some.injEq]
      constructor
      · rintro rfl
        exact .inl ⟨by simp, rfl⟩
      · rintro (⟨member, equal⟩ | ⟨untold, _⟩)
        · exact (alone member equal).symm
        · exact absurd rfl (untold type (by simp))
    · rw [Entries.get?_insert_of_ne here, holds.types]
      simp only [List.mem_append, List.mem_singleton, Call.add.injEq]
      grind
  case replaced =>
    intro name member
    rcases known name member with before | rfl
    · obtain ⟨other, told, equal⟩ := holds.replaced name before
      exact ⟨other, List.mem_append_left _ told, equal⟩
    · exact ⟨type, by simp, rfl⟩
  case duplicates => exact holds.duplicates
  case roots =>
    intro operation name
    have roots := @holds.roots operation name
    cases operation <;> simpa [rootName?] using roots

theorem withRoot (holds : builder.Holds calls) {operation : OperationKind} {name : String}
    (definite : Definite (calls ++ [.withRoot operation name])) :
    (builder.withRoot operation name).Holds (calls ++ [.withRoot operation name]) := by
  constructor
  case types =>
    intro other type
    have types := @holds.types other type
    cases operation <;> simpa [SchemaBuilder.withRoot] using types
  case replaced =>
    intro other member
    have replaced := holds.replaced other
    cases operation <;> simpa using replaced member
  case duplicates => cases operation <;> exact holds.duplicates
  case roots =>
    intro other root
    rw [rootName?_withRoot]
    split
    next same =>
      subst same
      rw [Option.some.injEq]
      constructor
      · rintro rfl
        simp
      · intro member
        exact definite.roots (by simp) member
    next different => rw [holds.roots]; simp [different]

end Holds

theorem holds_ofCalls {calls : List (Call ρ)} (definite : Definite calls) :
    (ofCalls calls).Holds calls := by
  induction calls using List.reverseRecOn with
  | nil =>
      refine ⟨by simp [ofCalls], by simp [ofCalls, initial], rfl, ?_⟩
      intro operation name
      cases operation <;> simp [ofCalls, initial, rootName?]
  | append_singleton calls last induction =>
      have holds := induction definite.init
      rw [ofCalls_concat]
      cases last with
      | add type => exact holds.add definite.fresh
      | withRoot operation name => exact holds.withRoot definite

/-! ## What is checked -/

section Checks

variable {types others : Entries (TypeDefinition ρ)}
  (same : ∀ name, Entries.get? name types = Entries.get? name others)

include same

theorem lookup_congr (name referencedBy : String) :
    lookup types name referencedBy = lookup others name referencedBy := by
  rw [lookup, lookup, same]

theorem checkRoot_congr (operation : OperationKind) (name : String) :
    checkRoot types operation name = checkRoot others operation name := by
  rw [checkRoot, checkRoot, same]

theorem checkRole_congr (type : TypeRef) (referencedBy : String) (role : Role)
    (plays : TypeDefinition ρ → Bool) :
    checkRole types type referencedBy role plays =
      checkRole others type referencedBy role plays := by
  rw [checkRole, checkRole, lookup_congr same]

theorem checkField_congr (owner : String) (field : FieldDefinition ρ) :
    checkField types owner field = checkField others owner field := by
  simp only [checkField, checkRole_congr same]

theorem checkConformance_congr (object : ObjectDefinition ρ) (interfaceName : String) :
    checkConformance types object interfaceName =
      checkConformance others object interfaceName := by
  rw [checkConformance, checkConformance, lookup_congr same]

theorem checkMember_congr (union : UnionDefinition) (member : String) :
    checkMember types union member = checkMember others union member := by
  rw [checkMember, checkMember, lookup_congr same]

theorem checkType_congr (type : TypeDefinition ρ) :
    checkType types type = checkType others type := by
  have fields : checkField types type.name = checkField others type.name :=
    funext (checkField_congr same _)
  cases type with
  | object object =>
      have conformance : checkConformance types object = checkConformance others object :=
        funext (checkConformance_congr same object)
      simp only [checkType, fields, conformance]
  | union union =>
      have member : checkMember types union = checkMember others union :=
        funext (checkMember_congr same union)
      simp only [checkType, fields, member]
  | inputObject input => simp only [checkType, fields, checkRole_congr same]
  | _ => simp only [checkType, fields]

end Checks

variable {builder other : SchemaBuilder ρ} {schema : Schema ρ}

/-- Nothing but a duplicate can keep a schema from being built that passes the checks. -/
theorem build_of_passes (passes : builder.Passes schema) (single : builder.duplicates = []) :
    builder.build = .ok schema := by
  have optional : ∀ {operation name}, builder.rootName? operation = name →
      checkOptionalRoot builder.types operation name = .ok () := by
    rintro operation (_ | name) named
    · rfl
    · exact passes.roots named
  have query : checkRoot builder.types .query schema.query = .ok () := passes.roots passes.query
  have mutation : checkOptionalRoot builder.types .mutation builder.mutation = .ok () :=
    optional rfl
  have subscription :
      checkOptionalRoot builder.types .subscription builder.subscription = .ok () :=
    optional rfl
  have checked := Except.forM_eq_ok passes.checked
  simp only [build, single, passes.query, query, mutation, subscription, checked, Except.ok_bind]
  rw [← passes.types, ← passes.mutation, ← passes.subscription]
  rfl

structure Alike (builder other : SchemaBuilder ρ) : Prop where
  types : builder.types.Perm other.types
  found : ∀ name, Entries.get? name builder.types = Entries.get? name other.types
  roots : ∀ operation, builder.rootName? operation = other.rootName? operation
  single : builder.duplicates = []
  singleOther : other.duplicates = []

theorem Alike.symm (alike : builder.Alike other) : other.Alike builder :=
  ⟨alike.types.symm, fun name => (alike.found name).symm,
    fun operation => (alike.roots operation).symm, alike.singleOther, alike.single⟩

theorem Alike.build (alike : builder.Alike other) (built : builder.build = .ok schema) :
    other.build = .ok { schema with types := other.types } := by
  have passes := passes_of_build built
  refine build_of_passes ⟨rfl, ?_, ?_, ?_, ?_, ?_⟩ alike.singleOther
  · exact (alike.roots .query).symm.trans passes.query
  · exact passes.mutation.trans (alike.roots .mutation)
  · exact passes.subscription.trans (alike.roots .subscription)
  · intro operation name named
    rw [← checkRoot_congr alike.found]
    exact passes.roots ((alike.roots operation).trans named)
  · intro type member
    rw [← checkType_congr alike.found]
    exact passes.checked type ((alike.types.map Prod.snd).mem_iff.mpr member)

theorem alike_of_perm {calls others : List (Call ρ)} (definite : Definite calls)
    (rearranged : calls.Perm others) : (ofCalls calls).Alike (ofCalls others) := by
  have holds := holds_ofCalls definite
  have holdsOther := holds_ofCalls (definite.perm rearranged)
  have found : ∀ name, Entries.get? name (ofCalls calls).types =
      Entries.get? name (ofCalls others).types := by
    intro name
    refine Option.ext fun type => ?_
    rw [holds.types, holdsOther.types]
    simp only [rearranged.mem_iff]
  refine ⟨?_, found, fun operation => Option.ext fun name => ?_, holds.duplicates,
    holdsOther.duplicates⟩
  · exact Entries.perm_of_get?_eq (assembled_ofCalls calls).nodup (assembled_ofCalls others).nodup
      found
  · rw [holds.roots, holdsOther.roots, rearranged.mem_iff]

end SchemaBuilder

/-! ## What schemas have in common -/

namespace Schema

/-- Schemas that differ only in the order in which things are listed. -/
structure AgreesWith (schema other : Schema ρ) : Prop where
  types : schema.types.Perm other.types
  type? : ∀ name, schema.type? name = other.type? name
  root? : ∀ operation, schema.root? operation = other.root? operation
  implements : ∀ objectName interfaceName,
    schema.implements objectName interfaceName = other.implements objectName interfaceName
  possibleTypes : ∀ abstractName,
    (schema.possibleTypes abstractName).Perm (other.possibleTypes abstractName)
  isPossibleType : ∀ abstractName objectName,
    schema.isPossibleType abstractName objectName = other.isPossibleType abstractName objectName
  runtimeType? : ∀ type value context,
    schema.runtimeType? type value context = other.runtimeType? type value context

theorem agreesWith_rearranged {schema : Schema ρ} {types : Entries (TypeDefinition ρ)}
    (rearranged : schema.types.Perm types)
    (found : ∀ name, schema.type? name = Entries.get? name types) :
    schema.AgreesWith { schema with types := types } := by
  have object : schema.object? = ({ schema with types := types } : Schema ρ).object? := by
    funext name
    rw [object?, object?, found]
    rfl
  have possible : ∀ abstractName, (schema.possibleTypes abstractName).Perm
      (({ schema with types := types } : Schema ρ).possibleTypes abstractName) :=
    fun abstractName => (rearranged.map Prod.snd).flatMap_right _
  have isPossible : schema.isPossibleType =
      ({ schema with types := types } : Schema ρ).isPossibleType := by
    funext abstractName objectName
    exact (possible abstractName).contains_eq
  refine ⟨rearranged, found, ?_, ?_, possible, ?_, ?_⟩
  · intro operation
    cases operation <;> simp only [root?, object]
  · intro objectName interfaceName
    simp only [implements, object]
  · intro abstractName objectName
    rw [isPossible]
  · intro type value context
    cases type <;> simp only [runtimeType?, object, isPossible]

/-- Definitions of different names, and a root for some operations, can be given in any
order: the schema is accepted in all orders or in none, and what is found in it is the
same. -/
theorem order_of_calls_is_free {calls others : List (SchemaBuilder.Call ρ)}
    (definite : SchemaBuilder.Definite calls) (rearranged : calls.Perm others) :
    (∃ schema other, (SchemaBuilder.ofCalls calls).build = .ok schema ∧
      (SchemaBuilder.ofCalls others).build = .ok other ∧ schema.AgreesWith other) ∨
    ∃ fault otherFault, (SchemaBuilder.ofCalls calls).build = .error fault ∧
      (SchemaBuilder.ofCalls others).build = .error otherFault := by
  have alike := SchemaBuilder.alike_of_perm definite rearranged
  cases built : (SchemaBuilder.ofCalls calls).build with
  | ok schema =>
      have types := SchemaBuilder.types_eq_of_build built
      refine .inl ⟨schema, _, rfl, alike.build built, agreesWith_rearranged ?_ ?_⟩
      · exact types ▸ alike.types
      · intro name
        rw [type?, types]
        exact alike.found name
  | error fault =>
      cases builtOther : (SchemaBuilder.ofCalls others).build with
      | error otherFault => exact .inr ⟨fault, otherFault, rfl, rfl⟩
      | ok other =>
          rw [alike.symm.build builtOther] at built
          cases built

end Schema

/-! ## A cellar -/

namespace Cellar

def vineyard : FieldDefinition Unit := ⟨"vineyard", none, .named "ID", [], none⟩

def pairsWith : FieldDefinition Unit := ⟨"pairsWith", none, .list (.named "Wine"), [], none⟩

def wine : InterfaceDefinition Unit where
  name := "Wine"
  description := none
  fields := [("vineyard", vineyard), ("pairsWith", pairsWith)]
  resolveType := none

def red : ObjectDefinition Unit where
  name := "Red"
  description := none
  fields := [("vineyard", vineyard), ("pairsWith", pairsWith)]
  implements := ["Wine"]

def query : ObjectDefinition Unit where
  name := "Query"
  description := none
  fields := [("wines", ⟨"wines", none, .list (.named "Wine"), [], some ()⟩)]
  implements := []

def identifier : ScalarDefinition := ⟨"ID", none, .ok, .ok⟩

def calls : List (SchemaBuilder.Call Unit) :=
  [.withRoot .query "Query", .add (.object query), .add (.object red), .add (.interface wine),
    .add (.scalar identifier)]

def schema : Schema Unit where
  types := (SchemaBuilder.ofCalls calls).types
  query := "Query"
  mutation := none
  subscription := none

theorem definite : SchemaBuilder.Definite calls where
  names := by decide
  roots first second := by
    simp only [calls, List.mem_cons, reduceCtorEq, SchemaBuilder.Call.withRoot.injEq,
      List.not_mem_nil, or_false] at first second
    exact first.2.trans second.2.symm

theorem build_calls : (SchemaBuilder.ofCalls calls).build = .ok schema := rfl

/-- The cellar can be described backwards, to the same effect. -/
theorem described_backwards :
    SchemaBuilder.Definite calls ∧ calls.Perm calls.reverse ∧
    ∃ other, (SchemaBuilder.ofCalls calls.reverse).build = .ok other ∧
      schema.AgreesWith other := by
  have rearranged : calls.Perm calls.reverse := (List.reverse_perm calls).symm
  refine ⟨definite, rearranged, ?_⟩
  rcases Schema.order_of_calls_is_free definite rearranged with
    ⟨first, other, built, builtOther, agrees⟩ | ⟨fault, _, refused, _⟩
  · rw [build_calls] at built
    cases built
    exact ⟨other, builtOther, agrees⟩
  · rw [build_calls] at refused
    cases refused

end Cellar

end GraphQuery
