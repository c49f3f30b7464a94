import GraphQuery.Proofs.Coercion.Validity
import GraphQuery.Proofs.Success

/-! Coercion gives valid values only: of values that come with a request, of literals
and of the variables that stand in them. -/

namespace GraphQuery

variable {ρ : Type} {schema : Schema ρ}

/-! ## Offers -/

/-- Whatever a coercer gives is valid for the type that was asked for. -/
def Coercer.Sound (schema : Schema ρ) (coercer : Coercer) : Prop :=
  ∀ {type value}, coercer type = .ok value → schema.ValidInput type value

namespace Offer

/-- What each way of describing a value must see to. -/
structure Sound (schema : Schema ρ) (offer : Offer) : Prop where
  plain : offer.isNull = false → offer.plain ≠ .null
  symbol : ∀ {enum value}, offer.symbol enum = .ok value →
    ∃ symbol ∈ enum.values.values, symbol.value = value
  items : ∀ {coercers}, offer.items = some coercers →
    ∀ coercer ∈ coercers, Coercer.Sound schema coercer
  fields : ∀ {provided}, offer.fields = some provided →
    ∀ field ∈ provided, Coercer.Sound schema field.2

variable {offer : Offer}

theorem mem_of_field? {name : String} {provided : List (String × Coercer)} {coercer : Coercer}
    (found : field? name provided = some coercer) : ∃ field ∈ provided, field.2 = coercer := by
  rcases Option.map_eq_some_iff.mp found with ⟨field, first, same⟩
  exact ⟨field, List.mem_of_find?_eq_some first, same⟩

theorem validFields_of_coerceFields {owner : String} {provided : List (String × Coercer)}
    (sound : ∀ field ∈ provided, Coercer.Sound schema field.2) {fields : List InputDefinition}
    (defaults : ∀ declared ∈ fields, ∀ default,
      declared.default = some default → schema.ValidInput declared.type default)
    {entries : List (String × Json)} (done : coerceFields owner provided fields = .ok entries) :
    schema.ValidFields fields entries := by
  induction fields generalizing entries with
  | nil =>
      cases done
      exact .nil
  | cons declared rest induction =>
      rcases Except.exists_of_bind done with ⟨value, first, done⟩
      rcases Except.exists_of_bind done with ⟨others, second, same⟩
      have remaining := induction
        (fun other member => defaults other (List.mem_cons_of_mem declared member)) second
      unfold coerceField at first
      split at first
      · rename_i coercer found
        rcases Except.exists_of_map first with ⟨result, coerced, rfl⟩
        rcases mem_of_field? found with ⟨field, member, rfl⟩
        cases same
        exact .given (sound field member coerced) remaining
      · split at first
        · rename_i default found
          cases first
          cases same
          exact .given (defaults declared List.mem_cons_self default found) remaining
        · split at first
          · cases first
          · rename_i nullable
            cases first
            cases same
            exact .absent (Bool.eq_false_iff.mpr nullable) remaining

theorem Sound.coerceNamed (sound : offer.Sound schema) (inputs : schema.SoundInputs)
    (present : offer.isNull = false) {name : String} {value : Json}
    (done : coerceNamed schema offer name = .ok value) :
    schema.ValidInput (.named name) value ∧ value ≠ .null := by
  unfold Offer.coerceNamed at done
  split at done
  · rename_i scalar found
    refine ⟨.scalar found done, ?_⟩
    rintro rfl
    exact inputs.scalars found _ (sound.plain present) done
  · rename_i enum found
    rcases sound.symbol done with ⟨symbol, member, rfl⟩
    exact ⟨.enum found member, inputs.enums found symbol member⟩
  · rename_i input found
    split at done
    · rename_i provided given
      unfold coerceObject at done
      split at done
      · cases done
      · rcases Except.exists_of_map done with ⟨entries, coerced, rfl⟩
        exact ⟨.inputObject found (validFields_of_coerceFields (sound.fields given)
          (inputs.defaults found) coerced), by simp⟩
    · cases done
  · cases done
  · cases done

/-- An offer becomes a valid value, and null only if it is null. -/
theorem Sound.coerce (sound : offer.Sound schema) (inputs : schema.SoundInputs)
    {type : TypeRef} {value : Json} (done : offer.coerce schema type = .ok value) :
    schema.ValidInput type value ∧ (offer.isNull = false → value ≠ .null) := by
  induction type generalizing value with
  | named name =>
      rw [Offer.coerce] at done
      split at done
      · rename_i absent
        cases done
        exact ⟨.null rfl, fun present => by simp [absent] at present⟩
      · rename_i present
        have named := sound.coerceNamed inputs (Bool.eq_false_iff.mpr present) done
        exact ⟨named.1, fun _ => named.2⟩
  | list item induction =>
      rw [Offer.coerce] at done
      split at done
      · rename_i absent
        cases done
        exact ⟨.null rfl, fun present => by simp [absent] at present⟩
      · split at done
        · rename_i coercers given
          rcases Except.exists_of_map done with ⟨values, coerced, rfl⟩
          refine ⟨.list fun value member => ?_, by simp⟩
          rcases Except.exists_of_mapM coerced value member with ⟨coercer, inside, gives⟩
          exact sound.items given coercer inside gives
        · rcases Except.exists_of_map done with ⟨only, coerced, rfl⟩
          refine ⟨.list fun value member => ?_, by simp⟩
          exact List.mem_singleton.mp member ▸ (induction coerced).1
  | nonNull inner induction =>
      rw [Offer.coerce] at done
      split at done
      · cases done
      · rename_i present
        have inside := induction done
        have different := inside.2 (Bool.eq_false_iff.mpr present)
        exact ⟨.nonNull different inside.1, fun _ => different⟩

theorem Sound.coercer (sound : offer.Sound schema) (inputs : schema.SoundInputs) :
    Coercer.Sound schema (offer.coerce schema) :=
  fun done => (sound.coerce inputs done).1

end Offer

theorem EnumDefinition.exists_of_coerceInput {enum : EnumDefinition} {given value : Json}
    (done : enum.coerceInput given = .ok value) :
    ∃ symbol ∈ enum.values.values, symbol.value = value := by
  unfold coerceInput at done
  split at done
  · split at done
    · rename_i found
      cases done
      exact ⟨_, List.mem_map.mpr ⟨_, Entries.mem_of_get? found, rfl⟩, rfl⟩
    · cases done
  · cases done

/-! ## Values that come with a request -/

namespace Schema

theorem sound_ofJson {value : Json} {items : Option (List Coercer)}
    {fields : Option (List (String × Coercer))}
    (itemsSound : ∀ {coercers}, items = some coercers →
      ∀ coercer ∈ coercers, Coercer.Sound schema coercer)
    (fieldsSound : ∀ {provided}, fields = some provided →
      ∀ field ∈ provided, Coercer.Sound schema field.2) :
    (Offer.ofJson value items fields).Sound schema where
  plain := by
    rintro present rfl
    cases present
  symbol := EnumDefinition.exists_of_coerceInput
  items := itemsSound
  fields := fieldsSound

theorem sound_ofPlainJson (value : Json) : (Offer.ofJson value none none).Sound schema :=
  sound_ofJson nofun nofun

mutual
theorem sound_coerceInput (inputs : schema.SoundInputs) :
    ∀ value : Json, Coercer.Sound schema (coerceInput schema value)
  | .array items => by
      rw [coerceInput]
      refine (sound_ofJson ?_ (by nofun)).coercer inputs
      rintro _ ⟨⟩
      exact sound_itemCoercers inputs items
  | .object entries => by
      rw [coerceInput]
      refine (sound_ofJson (by nofun) ?_).coercer inputs
      rintro _ ⟨⟩
      exact sound_entryCoercers inputs entries
  | .null => by
      rw [coerceInput]
      exact (sound_ofPlainJson _).coercer inputs
  | .boolean value => by
      rw [coerceInput]
      exact (sound_ofPlainJson _).coercer inputs
  | .integer value => by
      rw [coerceInput]
      exact (sound_ofPlainJson _).coercer inputs
  | .float value => by
      rw [coerceInput]
      exact (sound_ofPlainJson _).coercer inputs
  | .string value => by
      rw [coerceInput]
      exact (sound_ofPlainJson _).coercer inputs

theorem sound_itemCoercers (inputs : schema.SoundInputs) :
    ∀ items : List Json, ∀ coercer ∈ itemCoercers schema items, Coercer.Sound schema coercer
  | [] => by simp [itemCoercers]
  | item :: rest => by
      rw [itemCoercers, List.forall_mem_cons]
      exact ⟨sound_coerceInput inputs item, sound_itemCoercers inputs rest⟩

theorem sound_entryCoercers (inputs : schema.SoundInputs) :
    ∀ entries : List (String × Json), ∀ field ∈ entryCoercers schema entries,
      Coercer.Sound schema field.2
  | [] => by simp [entryCoercers]
  | (name, value) :: rest => by
      rw [entryCoercers, List.forall_mem_cons]
      exact ⟨sound_coerceInput inputs value, sound_entryCoercers inputs rest⟩
end

end Schema

/-! ## Variables -/

def Variables.Sound (schema : Schema ρ) (bindings : Variables) : Prop :=
  ∀ {name binding}, Entries.get? name bindings = some binding →
    binding.type.Collapsed ∧ ∀ {value}, binding.value = some value →
      schema.ValidInput binding.type value

theorem Variables.sound_nil : Variables.Sound schema [] := by
  intro name binding found
  cases found

theorem sound_coerceVariable {bindings : Variables} (sound : bindings.Sound schema)
    (name : String) : Coercer.Sound schema (coerceVariable bindings name) := by
  intro type value done
  unfold coerceVariable at done
  split at done
  · cases done
  · rename_i binding found
    rcases sound found with ⟨collapsed, valid⟩
    extract_lets position at done
    split at done
    · cases done
    · rename_i fits
      rw [Bool.not_eq_true', Bool.not_eq_false] at fits
      split at done
      · split at done
        · cases done
        · rename_i nullable
          cases done
          exact .null (Bool.eq_false_iff.mpr nullable)
      · split at done
        · cases done
        · rename_i nullable
          cases done
          exact .null (Bool.eq_false_iff.mpr nullable)
      · rename_i given present known
        cases done
        unfold position at fits
        split at fits
        · -- The default stands in for null, so the position counts without its mark.
          cases type with
          | nonNull position =>
              exact .nonNull (promote_ne_null present) ((valid known).promote collapsed fits)
          | _ => exact (valid known).promote collapsed fits
        · exact (valid known).promote collapsed fits

/-! ## Literals -/

namespace Literal

mutual
def isFinite : Literal → Bool
  | .float value => value.isFinite
  | .list items => itemsAreFinite items
  | .object fields => fieldsAreFinite fields
  | _ => true

def itemsAreFinite : List Literal → Bool
  | [] => true
  | item :: rest => isFinite item && itemsAreFinite rest

def fieldsAreFinite : List (Name × Literal) → Bool
  | [] => true
  | (_, value) :: rest => isFinite value && fieldsAreFinite rest
end

end Literal

namespace Schema

variable {bindings : Variables}

theorem sound_ofLiteral {literal : Literal} {items : Option (List Coercer)}
    {fields : Option (List (String × Coercer))}
    (plain : literal.isNull = false → literal.toJson bindings ≠ .null)
    (itemsSound : ∀ {coercers}, items = some coercers →
      ∀ coercer ∈ coercers, Coercer.Sound schema coercer)
    (fieldsSound : ∀ {provided}, fields = some provided →
      ∀ field ∈ provided, Coercer.Sound schema field.2) :
    (Offer.ofLiteral bindings literal items fields).Sound schema where
  plain := plain
  symbol := by
    intro enum value done
    cases literal with
    | symbol name =>
        simp only [Offer.ofLiteral, Offer.symbolOfLiteral] at done
        exact EnumDefinition.exists_of_coerceInput done
    | _ => cases done
  items := itemsSound
  fields := fieldsSound

theorem sound_ofPlainLiteral {literal : Literal}
    (plain : literal.isNull = false → literal.toJson bindings ≠ .null) :
    (Offer.ofLiteral bindings literal none none).Sound schema :=
  sound_ofLiteral plain nofun nofun

mutual
theorem sound_coerceLiteral (inputs : schema.SoundInputs) (sound : bindings.Sound schema) :
    ∀ literal : Literal, literal.isFinite = true →
      Coercer.Sound schema (coerceLiteral schema bindings literal)
  | .reference name, _ => by
      rw [coerceLiteral]
      exact sound_coerceVariable sound name.text
  | .list items, finite => by
      rw [coerceLiteral]
      refine (sound_ofLiteral (by simp [Literal.toJson]) ?_ (by nofun)).coercer inputs
      rintro _ ⟨⟩
      exact sound_literalCoercers inputs sound items finite
  | .object fields, finite => by
      rw [coerceLiteral]
      refine (sound_ofLiteral (by simp [Literal.toJson]) (by nofun) ?_).coercer inputs
      rintro _ ⟨⟩
      exact sound_fieldCoercers inputs sound fields finite
  | .float value, finite => by
      rw [Literal.isFinite] at finite
      rw [coerceLiteral]
      exact (sound_ofPlainLiteral (by simp [Literal.toJson, Json.ofFloat, finite])).coercer inputs
  | .int value, _ => by
      rw [coerceLiteral]
      exact (sound_ofPlainLiteral (by simp [Literal.toJson])).coercer inputs
  | .string value, _ => by
      rw [coerceLiteral]
      exact (sound_ofPlainLiteral (by simp [Literal.toJson])).coercer inputs
  | .boolean value, _ => by
      rw [coerceLiteral]
      exact (sound_ofPlainLiteral (by simp [Literal.toJson])).coercer inputs
  | .null, _ => by
      rw [coerceLiteral]
      exact (sound_ofPlainLiteral (by simp [Literal.isNull])).coercer inputs
  | .symbol name, _ => by
      rw [coerceLiteral]
      exact (sound_ofPlainLiteral (by simp [Literal.toJson])).coercer inputs

theorem sound_literalCoercers (inputs : schema.SoundInputs) (sound : bindings.Sound schema) :
    ∀ items : List Literal, Literal.itemsAreFinite items = true →
      ∀ coercer ∈ literalCoercers schema bindings items, Coercer.Sound schema coercer
  | [], _ => by simp [literalCoercers]
  | item :: rest, finite => by
      rw [Literal.itemsAreFinite, Bool.and_eq_true] at finite
      rw [literalCoercers, List.forall_mem_cons]
      exact ⟨sound_coerceLiteral inputs sound item finite.1,
        sound_literalCoercers inputs sound rest finite.2⟩

theorem sound_fieldCoercers (inputs : schema.SoundInputs) (sound : bindings.Sound schema) :
    ∀ fields : List (Name × Literal), Literal.fieldsAreFinite fields = true →
      ∀ field ∈ fieldCoercers schema bindings fields, Coercer.Sound schema field.2
  | [], _ => by simp [fieldCoercers]
  | (name, value) :: rest, finite => by
      rw [Literal.fieldsAreFinite, Bool.and_eq_true] at finite
      rw [fieldCoercers, List.forall_mem_cons]
      exact ⟨sound_coerceLiteral inputs sound value finite.1,
        sound_fieldCoercers inputs sound rest finite.2⟩
end

end Schema

end GraphQuery
