import GraphQuery.Proofs.Schema.Rearrangement
import Mathlib.Data.List.Basic

/-! What an interface or a union may turn out to be is what has been declared. Behind an
interface are the object types that declare to implement it, in the order of their places;
behind a union are its members. -/

namespace GraphQuery

variable {ρ : Type}

/-! ## Entries of which one counts -/

theorem Entries.flatMap_values {α β : Type} {entries : Entries α} {name : String} {value : α}
    {items : α → List β} (distinct : entries.names.Nodup) (found : get? name entries = some value)
    (others : ∀ entry ∈ entries, entry.1 ≠ name → items entry.2 = []) :
    entries.values.flatMap items = items value := by
  induction entries with
  | nil => cases found
  | cons entry rest induction =>
      obtain ⟨key, other⟩ := entry
      obtain ⟨first, later⟩ := List.forall_mem_cons.mp others
      rw [names, List.map_cons, List.nodup_cons] at distinct
      change items other ++ (values rest).flatMap items = items value
      by_cases same : key = name
      · subst same
        rw [get?, if_pos rfl, Option.some.injEq] at found
        have nothing : (values rest).flatMap items = [] := by
          apply List.flatMap_eq_nil_iff.mpr
          intro value member
          obtain ⟨entry, inside, rfl⟩ := List.mem_map.mp member
          refine later entry inside ?_
          rintro rfl
          exact distinct.1 (List.mem_map.mpr ⟨entry, inside, rfl⟩)
        rw [found, nothing, List.append_nil]
      · rw [get?, if_neg same] at found
        rw [first same, List.nil_append]
        exact induction distinct.2 found later

/-! ## Places -/

namespace SchemaBuilder

variable {builder : SchemaBuilder ρ} {calls : List (Call ρ)}

def registered (calls : List (Call ρ)) : List String := calls.filterMap Call.defined?

/-- The names of all types in the order of their places. The built-in scalars come first, and
a type that replaces one of them stands in its place. -/
def places (calls : List (Call ρ)) : List String :=
  BuiltIn.scalars.map ScalarDefinition.name ++
    (registered calls).filter fun name => !BuiltIn.isScalarName name

theorem mem_places_of_isScalarName {name : String} (scalar : BuiltIn.isScalarName name = true) :
    name ∈ places calls := by
  obtain ⟨definition, member, same⟩ := List.any_eq_true.mp scalar
  exact List.mem_append_left _ (List.mem_map.mpr ⟨definition, member, beq_iff_eq.mp same⟩)

theorem places_concat (calls : List (Call ρ)) (last : Call ρ) :
    places (calls ++ [last]) =
      places calls ++ last.defined?.toList.filter fun name => !BuiltIn.isScalarName name := by
  rw [places, registered, List.filterMap_append, List.filter_append, ← List.append_assoc]
  cases last <;> rfl

theorem add_of_unique {type : TypeDefinition ρ} (unique : (builder.add type).duplicates = []) :
    builder.duplicates = [] ∧
      (builder.add type).types = Entries.insert type.name type builder.types ∧
      (BuiltIn.isScalarName type.name = true ∨ type.name ∉ builder.types.names) := by
  unfold add at unique ⊢
  split
  next replaces =>
    rw [if_pos replaces] at unique
    exact ⟨unique, rfl, .inl (Bool.and_eq_true_iff.mp replaces).1⟩
  next stays =>
    rw [if_neg stays] at unique
    split
    next known => simp [known] at unique
    next fresh =>
      rw [if_neg fresh] at unique
      exact ⟨unique, rfl, .inr (mt Entries.contains_iff.mpr fresh)⟩

theorem names_ofCalls (unique : (ofCalls calls).duplicates = []) :
    (ofCalls calls).types.names = places calls := by
  induction calls using List.reverseRecOn with
  | nil => rfl
  | append_singleton calls last induction =>
      rw [ofCalls_concat] at unique ⊢
      rw [places_concat]
      cases last with
      | add type =>
          obtain ⟨before, types, new⟩ := add_of_unique unique
          have names := induction before
          change ((ofCalls calls).add type).types.names =
            places calls ++ [type.name].filter fun name => !BuiltIn.isScalarName name
          rw [types, Entries.names_insert, names]
          by_cases scalar : BuiltIn.isScalarName type.name = true
          · rw [if_pos (mem_places_of_isScalarName scalar)]
            simp [scalar]
          · rw [if_neg (names ▸ new.resolve_left scalar)]
            simp [scalar]
      | withRoot operation name =>
          cases operation <;> exact (induction unique).trans (List.append_nil _).symm

theorem duplicates_of_build {schema : Schema ρ} (built : builder.build = .ok schema) :
    builder.duplicates = [] := by
  simp only [build] at built
  split at built
  · cases built
  · assumption

end SchemaBuilder

/-! ## One pass for all -/

namespace Schema

theorem listed_enlist (table : Entries (List String)) (name other : String) (more : List String) :
    listed (enlist name more table) other =
      listed table other ++ if name = other then more else [] := by
  unfold listed enlist
  split
  next same =>
    subst same
    rw [Entries.get?_insert_self]
    rfl
  next different => rw [Entries.get?_insert_of_ne different, List.append_nil]

theorem listed_record (table : Entries (List String)) (type : TypeDefinition ρ) (name : String) :
    listed (record table type) name = listed table name ++ contribution name type := by
  cases type with
  | object object =>
      simp only [record, contribution]
      induction object.implements generalizing table with
      | nil => exact (List.append_nil _).symm
      | cons interface rest induction =>
          rw [List.foldl_cons, induction, listed_enlist, List.append_assoc, List.filter_cons]
          by_cases same : interface = name <;> simp [same]
  | interface interface =>
      rw [record, listed_enlist, ite_self]
      rfl
  | union union => exact listed_enlist table union.name name union.members
  | _ => exact (List.append_nil _).symm

theorem listed_foldl_record (table : Entries (List String)) (types : List (TypeDefinition ρ))
    (name : String) :
    listed (types.foldl record table) name =
      listed table name ++ types.flatMap (contribution name) := by
  induction types generalizing table with
  | nil => exact (List.append_nil _).symm
  | cons type rest induction =>
      rw [List.foldl_cons, induction, listed_record, List.flatMap_cons, List.append_assoc]

variable {schema : Schema ρ}

theorem listed_possibleTypesTable (name : String) :
    listed schema.possibleTypesTable name = schema.possibleTypes name :=
  (listed_foldl_record [] schema.types.values name).trans (List.nil_append _)

/-! ## What is declared -/

def Declares (schema : Schema ρ) (objectName interfaceName : String) : Prop :=
  ∃ object interface, schema.type? objectName = some (.object object) ∧
    schema.type? interfaceName = some (.interface interface) ∧
    interfaceName ∈ object.implements

def HasMember (schema : Schema ρ) (unionName memberName : String) : Prop :=
  ∃ union, schema.type? unionName = some (.union union) ∧ memberName ∈ union.members

/-- The name of an object type, as often as it declares to implement an interface. -/
def declarations (schema : Schema ρ) (interfaceName objectName : String) : List String :=
  match schema.object? objectName with
  | some object => List.replicate (object.implements.count interfaceName) objectName
  | none => []

variable {abstractName name : String}

theorem mem_declarations {objectName : String} :
    name ∈ schema.declarations abstractName objectName ↔
      name = objectName ∧ ∃ object, schema.type? objectName = some (.object object) ∧
        abstractName ∈ object.implements := by
  simp only [← object?_eq_some_iff, declarations]
  cases schema.object? objectName with
  | none => simp
  | some object => simp [List.mem_replicate, List.count_eq_zero, and_comm]

section Interfaces

variable {interface : InterfaceDefinition ρ}

theorem IsBuilt.contribution_eq_declarations (built : schema.IsBuilt)
    (isInterface : schema.type? abstractName = some (.interface interface))
    {type : TypeDefinition ρ} (found : schema.type? name = some type) :
    contribution abstractName type = schema.declarations abstractName name := by
  have named := built.name_eq found
  cases type with
  | object object =>
      have named : object.name = name := named
      simp only [contribution, declarations, object?_eq_some_iff.mpr found, named,
        List.count_eq_length_filter]
      exact List.map_const'
  | union union =>
      have different : union.name ≠ abstractName := by
        rintro rfl
        rw [TypeDefinition.name] at named
        rw [named, found] at isInterface
        cases isInterface
      simp [contribution, declarations, object?, found, different]
  | _ => simp [contribution, declarations, object?, found]

theorem IsBuilt.possibleTypes_of_interface (built : schema.IsBuilt)
    (isInterface : schema.type? abstractName = some (.interface interface)) :
    schema.possibleTypes abstractName =
      schema.types.names.flatMap (schema.declarations abstractName) := by
  rw [possibleTypes, Entries.values, Entries.names, List.flatMap_map, List.flatMap_map]
  apply List.flatMap_congr
  intro entry member
  exact built.contribution_eq_declarations isInterface (Entries.get?_of_mem built.nodup member)

theorem IsBuilt.mem_possibleTypes_of_interface (built : schema.IsBuilt)
    (isInterface : schema.type? abstractName = some (.interface interface)) :
    name ∈ schema.possibleTypes abstractName ↔ schema.Declares name abstractName := by
  rw [built.possibleTypes_of_interface isInterface, List.mem_flatMap]
  constructor
  · rintro ⟨objectName, _, member⟩
    obtain ⟨rfl, object, found, declared⟩ := mem_declarations.mp member
    exact ⟨object, interface, found, isInterface, declared⟩
  · rintro ⟨object, _, found, _, declared⟩
    exact ⟨name, Entries.mem_names_of_get? found,
      mem_declarations.mpr ⟨rfl, object, found, declared⟩⟩

end Interfaces

theorem IsBuilt.contribution_of_ne (built : schema.IsBuilt) {union : UnionDefinition}
    (isUnion : schema.type? abstractName = some (.union union)) {type : TypeDefinition ρ}
    (member : type ∈ schema.types.values) (different : type.name ≠ abstractName) :
    contribution abstractName type = [] := by
  cases type with
  | object object =>
      have undeclared : ∀ interfaceName ∈ object.implements, interfaceName ≠ abstractName := by
        rintro _ declared rfl
        obtain ⟨interface, isInterface⟩ := built.interface_of_implements member declared
        rw [isUnion] at isInterface
        cases isInterface
      simpa [contribution] using undeclared
  | union other => exact if_neg different
  | _ => rfl

theorem IsBuilt.possibleTypes_of_union (built : schema.IsBuilt) {union : UnionDefinition}
    (isUnion : schema.type? abstractName = some (.union union)) :
    schema.possibleTypes abstractName = union.members := by
  have named : union.name = abstractName := built.name_eq isUnion
  have only : schema.possibleTypes abstractName =
      contribution abstractName (.union union : TypeDefinition ρ) := by
    apply Entries.flatMap_values built.nodup isUnion
    intro entry member different
    have found := Entries.get?_of_mem built.nodup member
    refine built.contribution_of_ne isUnion (List.mem_map_of_mem member) ?_
    rwa [built.name_eq found]
  rw [only]
  exact if_pos named

/-! ## The lists of possible types -/

theorem IsBuilt.mem_possibleTypes_iff (built : schema.IsBuilt) :
    name ∈ schema.possibleTypes abstractName ↔
      schema.Declares name abstractName ∨ schema.HasMember abstractName name := by
  constructor
  · intro possible
    obtain ⟨type, found, isAbstract⟩ := built.isAbstract_of_possible possible
    cases type with
    | interface interface => exact .inl ((built.mem_possibleTypes_of_interface found).mp possible)
    | union union => exact .inr ⟨union, found, built.possibleTypes_of_union found ▸ possible⟩
    | _ => cases isAbstract
  · rintro (⟨object, interface, found, isInterface, declared⟩ | ⟨union, isUnion, member⟩)
    · exact (built.mem_possibleTypes_of_interface isInterface).mpr
        ⟨object, interface, found, isInterface, declared⟩
    · exact built.possibleTypes_of_union isUnion ▸ member

theorem IsBuilt.implements_iff (built : schema.IsBuilt) :
    schema.implements name abstractName = true ↔ schema.Declares name abstractName := by
  constructor
  · intro implements
    unfold Schema.implements at implements
    split at implements
    next object found =>
      rw [object?_eq_some_iff] at found
      have member : .object object ∈ schema.types.values :=
        List.mem_map.mpr ⟨_, Entries.mem_of_get? found, rfl⟩
      have declared := List.contains_iff_mem.mp implements
      obtain ⟨interface, isInterface⟩ := built.interface_of_implements member declared
      exact ⟨object, interface, found, isInterface, declared⟩
    next => cases implements
  · rintro ⟨object, _, found, _, declared⟩
    rw [Schema.implements, object?_eq_some_iff.mpr found]
    exact List.contains_iff_mem.mpr declared

theorem names_of_build {calls : List (SchemaBuilder.Call ρ)}
    (accepted : (SchemaBuilder.ofCalls calls).build = .ok schema) :
    schema.types.names = SchemaBuilder.places calls := by
  rw [SchemaBuilder.types_eq_of_build accepted]
  exact SchemaBuilder.names_ofCalls (SchemaBuilder.duplicates_of_build accepted)

/-- Where no object type that counts replaces a built-in scalar, the places of the scalars do
not matter. -/
theorem flatMap_declarations_places {interface : InterfaceDefinition ρ}
    (calls : List (SchemaBuilder.Call ρ))
    (isInterface : schema.type? abstractName = some (.interface interface))
    (genuine : ∀ name, schema.Declares name abstractName → BuiltIn.isScalarName name = false) :
    (SchemaBuilder.places calls).flatMap (schema.declarations abstractName) =
      (SchemaBuilder.registered calls).flatMap (schema.declarations abstractName) := by
  have silent : ∀ name, BuiltIn.isScalarName name = true →
      schema.declarations abstractName name = [] := by
    intro name scalar
    apply List.eq_nil_iff_forall_not_mem.mpr
    intro other member
    obtain ⟨_, object, found, declared⟩ := mem_declarations.mp member
    rw [genuine name ⟨object, interface, found, isInterface, declared⟩] at scalar
    cases scalar
  have scalars : (BuiltIn.scalars.map ScalarDefinition.name).flatMap
      (schema.declarations abstractName) = [] := by
    apply List.flatMap_eq_nil_iff.mpr
    intro name member
    obtain ⟨scalar, inside, rfl⟩ := List.mem_map.mp member
    exact silent _ (List.any_eq_true.mpr ⟨scalar, inside, beq_self_eq_true _⟩)
  rw [SchemaBuilder.places, List.flatMap_append, scalars, List.nil_append]
  induction SchemaBuilder.registered calls with
  | nil => rfl
  | cons name rest induction =>
      rw [List.filter_cons, List.flatMap_cons, ← induction]
      by_cases scalar : BuiltIn.isScalarName name = true
      · simp [scalar, silent name scalar]
      · simp [scalar]

/-- Possible are the object types that declare to implement an interface, and the members of a
union. The list of an interface has the order of the places of its object types, and hence
that of their registration if none of them replaces a built-in scalar. The list of a union
has the order of its members. Whatever is listed is an object type of the schema, and only
interfaces and unions have lists with anything in them. A single pass through the types finds
all these lists. -/
theorem possible_types_are_declared {calls : List (SchemaBuilder.Call ρ)} {schema : Schema ρ}
    (accepted : (SchemaBuilder.ofCalls calls).build = .ok schema) :
    (∀ abstractName objectName, schema.isPossibleType abstractName objectName = true ↔
      schema.Declares objectName abstractName ∨ schema.HasMember abstractName objectName) ∧
    (∀ abstractName interface, schema.type? abstractName = some (.interface interface) →
      (∀ objectName, schema.isPossibleType abstractName objectName =
        schema.implements objectName abstractName) ∧
      schema.possibleTypes abstractName =
        (SchemaBuilder.places calls).flatMap (schema.declarations abstractName) ∧
      ((∀ name, schema.Declares name abstractName → BuiltIn.isScalarName name = false) →
        schema.possibleTypes abstractName =
          (SchemaBuilder.registered calls).flatMap (schema.declarations abstractName))) ∧
    (∀ abstractName union, schema.type? abstractName = some (.union union) →
      schema.possibleTypes abstractName = union.members) ∧
    (∀ abstractName, ∀ name ∈ schema.possibleTypes abstractName,
      ∃ object, schema.type? name = some (.object object)) ∧
    (∀ abstractName, (∀ type, schema.type? abstractName = some type → type.isAbstract = false) →
      schema.possibleTypes abstractName = []) ∧
    ∀ abstractName, listed schema.possibleTypesTable abstractName =
      schema.possibleTypes abstractName := by
  have built : schema.IsBuilt := ⟨_, SchemaBuilder.assembled_ofCalls calls, accepted⟩
  refine ⟨?_, ?_, fun _ _ => built.possibleTypes_of_union, ?_, ?_, listed_possibleTypesTable⟩
  · intro abstractName objectName
    rw [isPossibleType, List.contains_iff_mem]
    exact built.mem_possibleTypes_iff
  · intro abstractName interface isInterface
    have inPlaces : schema.possibleTypes abstractName =
        (SchemaBuilder.places calls).flatMap (schema.declarations abstractName) := by
      rw [built.possibleTypes_of_interface isInterface, names_of_build accepted]
    refine ⟨fun objectName => ?_, inPlaces, fun genuine => ?_⟩
    · rw [Bool.eq_iff_iff, built.implements_iff, isPossibleType, List.contains_iff_mem]
      exact built.mem_possibleTypes_of_interface isInterface
    · exact inPlaces.trans (flatMap_declarations_places calls isInterface genuine)
  · intro abstractName name possible
    obtain ⟨object, found⟩ := built.object?_of_possible possible
    exact ⟨object, object?_eq_some_iff.mp found⟩
  · intro abstractName concrete
    apply List.eq_nil_iff_forall_not_mem.mpr
    intro name possible
    obtain ⟨type, found, isAbstract⟩ := built.isAbstract_of_possible possible
    rw [concrete type found] at isAbstract
    cases isAbstract

end Schema

/-! ## At the border -/

namespace Border

def number : FieldDefinition Unit := ⟨"number", none, .named "String", [], none⟩

def proof : InterfaceDefinition Unit := ⟨"Proof", none, [("number", number)], none⟩

def passport : ObjectDefinition Unit := ⟨"Passport", none, [("number", number)], ["Proof"]⟩

/-- An identity card, which goes by the name of a built-in scalar. -/
def card : ObjectDefinition Unit := ⟨"ID", none, [("number", number)], ["Proof"]⟩

def document : UnionDefinition := ⟨"Document", none, ["Passport", "ID"], none⟩

def query : ObjectDefinition Unit where
  name := "Query"
  description := none
  fields := [("shown", ⟨"shown", none, .named "Document", [], some ()⟩)]
  implements := []

def calls : List (SchemaBuilder.Call Unit) :=
  [.withRoot .query "Query", .add (.object query), .add (.object passport), .add (.object card),
    .add (.union document), .add (.interface proof)]

def schema : Schema Unit where
  types := (SchemaBuilder.ofCalls calls).types
  query := "Query"
  mutation := none
  subscription := none

theorem build_calls : (SchemaBuilder.ofCalls calls).build = .ok schema := rfl

/-- The identity card is listed in the place of the scalar, and not after the passport, as it
has been registered. -/
theorem card_is_listed_first :
    (SchemaBuilder.ofCalls calls).build = .ok schema ∧
      schema.type? "Proof" = some (.interface proof) ∧
      SchemaBuilder.registered calls = ["Query", "Passport", "ID", "Document", "Proof"] ∧
      schema.possibleTypes "Proof" = ["ID", "Passport"] ∧
      schema.possibleTypes "Proof" ≠
        (SchemaBuilder.registered calls).flatMap (schema.declarations "Proof") :=
  ⟨build_calls, rfl, rfl, by decide, by decide⟩

/-- The union has the order of its members, and the interface that of the places. Whoever shows
an identity card shows a document and a proof. -/
theorem card_is_document_and_proof :
    (SchemaBuilder.ofCalls calls).build = .ok schema ∧
      schema.possibleTypes "Document" = ["Passport", "ID"] ∧
      schema.possibleTypes "Proof" =
        (SchemaBuilder.places calls).flatMap (schema.declarations "Proof") ∧
      schema.isPossibleType "Document" "ID" = true ∧
      schema.isPossibleType "Proof" "ID" = true ∧ schema.possibleTypes "ID" = [] := by
  obtain ⟨declared, interfaces, unions, _, others, _⟩ :=
    Schema.possible_types_are_declared build_calls
  refine ⟨build_calls, unions "Document" document rfl, (interfaces "Proof" proof rfl).2.1,
    ?_, ?_, ?_⟩
  · exact (declared "Document" "ID").mpr (.inr ⟨document, rfl, by simp [document]⟩)
  · exact (declared "Proof" "ID").mpr (.inl ⟨card, proof, rfl, rfl, by simp [card]⟩)
  · apply others
    rintro _ ⟨⟩
    rfl

end Border

end GraphQuery
