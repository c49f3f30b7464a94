import GraphQuery.Coercion.Variables
import GraphQuery.Proofs.Schema.References

/-! Where a schema has been built, coercion finds every type that it looks up, and finds it
to be one of input. -/

namespace GraphQuery

/-! ## Faults of types -/

def CoercionFault.isOfType : CoercionFault → Bool
  | .unknownType _ => true
  | .notInputType _ _ => true
  | _ => false

/-- A scalar of the schema itself has given this fault as its reason. -/
def Schema.ScalarRefuses {ρ : Type} (schema : Schema ρ) (fault : CoercionFault) : Prop :=
  ∃ name scalar value, schema.type? name = some (.scalar scalar) ∧
    scalar.coerceInput value = .error fault

/-- At types of input the coercer blames a type only if a scalar does. -/
def Coercer.Finds {ρ : Type} (schema : Schema ρ) (coercer : Coercer) : Prop :=
  ∀ {type fault}, schema.Plays TypeDefinition.isInput type → coercer type = .error fault →
    fault.isOfType = true → schema.ScalarRefuses fault

theorem EnumDefinition.isOfType_of_coerceInput {enum : EnumDefinition} {value : Json}
    {fault : CoercionFault} (failed : enum.coerceInput value = .error fault) :
    fault.isOfType = false := by
  unfold coerceInput at failed
  split at failed
  · split at failed
    · cases failed
    · cases failed
      rfl
  · cases failed
    rfl

/-! ## Offers -/

namespace Offer

variable {ρ : Type} {schema : Schema ρ}

structure Finds (schema : Schema ρ) (offer : Offer) : Prop where
  symbol : ∀ {enum fault}, offer.symbol enum = .error fault → fault.isOfType = false
  items : ∀ {coercers}, offer.items = some coercers →
    ∀ coercer ∈ coercers, Coercer.Finds schema coercer
  fields : ∀ {provided}, offer.fields = some provided →
    ∀ field ∈ provided, Coercer.Finds schema field.2
  refusal : ∀ type, (offer.refusal type).isOfType = false

variable {offer : Offer}

theorem finds_coerceField {owner : String} {declared : InputDefinition}
    {provided : List (String × Coercer)} (finds : ∀ field ∈ provided, Coercer.Finds schema field.2)
    (input : schema.Plays TypeDefinition.isInput declared.type) {fault : CoercionFault}
    (failed : coerceField owner declared provided = .error fault)
    (ofType : fault.isOfType = true) : schema.ScalarRefuses fault := by
  unfold coerceField at failed
  split at failed
  · rename_i coercer found
    obtain ⟨field, first, rfl⟩ := Option.map_eq_some_iff.mp found
    exact finds field (List.mem_of_find?_eq_some first) input (Except.eq_error_of_map failed) ofType
  · split at failed
    · cases failed
    · split at failed
      · cases failed
        cases ofType
      · cases failed

theorem finds_coerceFields {owner : String} {provided : List (String × Coercer)}
    (finds : ∀ field ∈ provided, Coercer.Finds schema field.2) {fields : List InputDefinition}
    (inputs : ∀ declared ∈ fields, schema.Plays TypeDefinition.isInput declared.type)
    {fault : CoercionFault} (failed : coerceFields owner provided fields = .error fault)
    (ofType : fault.isOfType = true) : schema.ScalarRefuses fault := by
  induction fields with
  | nil => cases failed
  | cons declared rest induction =>
      rw [List.forall_mem_cons] at inputs
      rcases Except.of_bind_error failed with first | ⟨value, _, failed⟩
      · exact finds_coerceField finds inputs.1 first ofType
      rcases Except.of_bind_error failed with second | ⟨others, _, failed⟩
      · exact induction inputs.2 second
      · cases value <;> cases failed

theorem Finds.coerceNamed (finds : offer.Finds schema) (refers : schema.RefersWell) {name : String}
    {fault : CoercionFault} (input : schema.Plays TypeDefinition.isInput (.named name))
    (failed : coerceNamed schema offer name = .error fault) (ofType : fault.isOfType = true) :
    schema.ScalarRefuses fault := by
  obtain ⟨target, found, isInput⟩ := input
  have known : schema.type? name = some target := found
  unfold Offer.coerceNamed at failed
  rw [known] at failed
  cases target with
  | scalar scalar => exact ⟨name, scalar, offer.plain, known, failed⟩
  | enum enum =>
      have other := finds.symbol failed
      rw [ofType] at other
      cases other
  | inputObject definition =>
      cases given : offer.fields with
      | none =>
          simp only [given, Except.error.injEq] at failed
          have other := finds.refusal name
          rw [failed, ofType] at other
          cases other
      | some provided =>
          simp only [given] at failed
          unfold coerceObject at failed
          split at failed
          · cases failed
            cases ofType
          · exact finds_coerceFields (finds.fields given) (refers.inputFields known)
              (Except.eq_error_of_map failed) ofType
  | object definition => cases isInput
  | interface definition => cases isInput
  | union definition => cases isInput

theorem Finds.coercer (finds : offer.Finds schema) (refers : schema.RefersWell) :
    Coercer.Finds schema (offer.coerce schema) := by
  intro type fault input failed ofType
  induction type with
  | named name =>
      rw [coerce] at failed
      split at failed
      · cases failed
      · exact finds.coerceNamed refers input failed ofType
  | list item induction =>
      rw [coerce] at failed
      split at failed
      · cases failed
      · split at failed
        · rename_i coercers given
          obtain ⟨coercer, member, fails⟩ :=
            Except.exists_of_mapM_error (Except.eq_error_of_map failed)
          have inputItem : schema.Plays TypeDefinition.isInput item := input
          exact finds.items given coercer member inputItem fails ofType
        · exact induction input (Except.eq_error_of_map failed)
  | nonNull inner induction =>
      rw [coerce] at failed
      split at failed
      · cases failed
        cases ofType
      · exact induction input failed

end Offer

/-! ## Values that come with a request -/

namespace Schema

variable {ρ : Type} {schema : Schema ρ} {bindings : Variables}

theorem finds_ofJson {value : Json} {items : Option (List Coercer)}
    {fields : Option (List (String × Coercer))}
    (itemsFind : ∀ {coercers}, items = some coercers →
      ∀ coercer ∈ coercers, Coercer.Finds schema coercer)
    (fieldsFind : ∀ {provided}, fields = some provided →
      ∀ field ∈ provided, Coercer.Finds schema field.2) :
    (Offer.ofJson value items fields).Finds schema where
  symbol := EnumDefinition.isOfType_of_coerceInput
  items := itemsFind
  fields := fieldsFind
  refusal := fun _ => rfl

theorem finds_ofPlainJson (value : Json) : (Offer.ofJson value none none).Finds schema :=
  finds_ofJson nofun nofun

mutual
theorem finds_coerceInput (refers : schema.RefersWell) :
    ∀ value : Json, Coercer.Finds schema (schema.coerceInput value)
  | .array items => by
      rw [coerceInput]
      refine (finds_ofJson ?_ (by nofun)).coercer refers
      rintro _ ⟨⟩
      exact finds_itemCoercers refers items
  | .object entries => by
      rw [coerceInput]
      refine (finds_ofJson (by nofun) ?_).coercer refers
      rintro _ ⟨⟩
      exact finds_entryCoercers refers entries
  | .null | .boolean _ | .integer _ | .float _ | .string _ => by
      rw [coerceInput]
      exact (finds_ofPlainJson _).coercer refers

theorem finds_itemCoercers (refers : schema.RefersWell) :
    ∀ items : List Json, ∀ coercer ∈ schema.itemCoercers items, Coercer.Finds schema coercer
  | [] => by simp [itemCoercers]
  | item :: rest => by
      rw [itemCoercers, List.forall_mem_cons]
      exact ⟨finds_coerceInput refers item, finds_itemCoercers refers rest⟩

theorem finds_entryCoercers (refers : schema.RefersWell) :
    ∀ entries : List (String × Json), ∀ field ∈ schema.entryCoercers entries,
      Coercer.Finds schema field.2
  | [] => by simp [entryCoercers]
  | (name, value) :: rest => by
      rw [entryCoercers, List.forall_mem_cons]
      exact ⟨finds_coerceInput refers value, finds_entryCoercers refers rest⟩
end

/-! ## Literals -/

theorem isOfType_of_coerceVariable {name : String} {type : TypeRef} {fault : CoercionFault}
    (failed : coerceVariable bindings name type = .error fault) : fault.isOfType = false := by
  unfold coerceVariable at failed
  split at failed
  · cases failed
    rfl
  · extract_lets position at failed
    split at failed
    · cases failed
      rfl
    · split at failed
      · split at failed
        · cases failed
          rfl
        · cases failed
      · split at failed
        · cases failed
          rfl
        · cases failed
      · cases failed

theorem finds_coerceVariable (name : String) :
    Coercer.Finds schema (coerceVariable bindings name) := by
  intro type fault _ failed ofType
  rw [isOfType_of_coerceVariable failed] at ofType
  cases ofType

theorem finds_ofLiteral {literal : Literal} {items : Option (List Coercer)}
    {fields : Option (List (String × Coercer))}
    (itemsFind : ∀ {coercers}, items = some coercers →
      ∀ coercer ∈ coercers, Coercer.Finds schema coercer)
    (fieldsFind : ∀ {provided}, fields = some provided →
      ∀ field ∈ provided, Coercer.Finds schema field.2) :
    (Offer.ofLiteral bindings literal items fields).Finds schema where
  symbol := by
    intro enum fault failed
    cases literal with
    | symbol name =>
        have refused : enum.coerceInput (.string name) = .error fault := failed
        exact EnumDefinition.isOfType_of_coerceInput refused
    | _ =>
        cases failed
        rfl
  items := itemsFind
  fields := fieldsFind
  refusal := fun _ => rfl

theorem finds_ofPlainLiteral (literal : Literal) :
    (Offer.ofLiteral bindings literal none none).Finds schema :=
  finds_ofLiteral nofun nofun

mutual
theorem finds_coerceLiteral (refers : schema.RefersWell) :
    ∀ literal : Literal, Coercer.Finds schema (schema.coerceLiteral bindings literal)
  | .reference name => by
      rw [coerceLiteral]
      exact finds_coerceVariable name.text
  | .list items => by
      rw [coerceLiteral]
      refine (finds_ofLiteral ?_ (by nofun)).coercer refers
      rintro _ ⟨⟩
      exact finds_literalCoercers refers items
  | .object fields => by
      rw [coerceLiteral]
      refine (finds_ofLiteral (by nofun) ?_).coercer refers
      rintro _ ⟨⟩
      exact finds_fieldCoercers refers fields
  | .int _ | .float _ | .string _ | .boolean _ | .null | .symbol _ => by
      rw [coerceLiteral]
      exact (finds_ofPlainLiteral _).coercer refers

theorem finds_literalCoercers (refers : schema.RefersWell) :
    ∀ items : List Literal, ∀ coercer ∈ schema.literalCoercers bindings items,
      Coercer.Finds schema coercer
  | [] => by simp [literalCoercers]
  | item :: rest => by
      rw [literalCoercers, List.forall_mem_cons]
      exact ⟨finds_coerceLiteral refers item, finds_literalCoercers refers rest⟩

theorem finds_fieldCoercers (refers : schema.RefersWell) :
    ∀ fields : List (Name × Literal), ∀ field ∈ schema.fieldCoercers bindings fields,
      Coercer.Finds schema field.2
  | [] => by simp [fieldCoercers]
  | (name, value) :: rest => by
      rw [fieldCoercers, List.forall_mem_cons]
      exact ⟨finds_coerceLiteral refers value, finds_fieldCoercers refers rest⟩
end

end Schema

end GraphQuery
