import GraphQuery.Proofs.Json.Equality
import GraphQuery.Schema.Definition
import Mathlib.Data.List.Find
import Mathlib.Data.List.Induction

/-! The two directions of an enum. A symbol leads to the value that it stands for inside, and
such a value back to the first symbol that stands for it, so what is lost on the way is only
which of several symbols it was. -/

namespace GraphQuery

/-! ## Entries that are set one after the other -/

namespace Entries

variable {α : Type}

theorem ofList_concat (entries : List (String × α)) (last : String × α) :
    ofList (entries ++ [last]) = insert last.1 last.2 (ofList entries) := by
  rw [ofList, List.foldl_append]
  rfl

theorem get?_ofList (entries : List (String × α)) (name : String) :
    get? name (ofList entries) =
      (entries.reverse.find? fun entry => entry.1 == name).map Prod.snd := by
  induction entries using List.reverseRecOn with
  | nil => rfl
  | append_singleton entries last induction =>
      rw [ofList_concat, List.reverse_append, List.reverse_singleton, List.singleton_append]
      by_cases same : last.1 = name
      · subst same
        rw [get?_insert_self, List.find?_cons_of_pos (by simp)]
        rfl
      · rw [get?_insert_of_ne same, List.find?_cons_of_neg (by simpa using same), induction]

theorem names_ofList (entries : List (String × α)) :
    names (ofList entries) = (entries.map Prod.fst).eraseDups := by
  induction entries using List.reverseRecOn with
  | nil => rfl
  | append_singleton entries last induction =>
      have known : last.1 ∈ names (ofList entries) ↔ last.1 ∈ entries.map Prod.fst := by
        rw [induction, List.mem_eraseDups]
      rw [ofList_concat, names_insert, List.map_append, List.eraseDups_append, induction]
      simp only [induction] at known
      by_cases member : last.1 ∈ entries.map Prod.fst
      · rw [if_pos (known.mpr member)]
        simp [List.removeAll, member]
      · have alone : [last.1].eraseDups = [last.1] := List.eraseDups_cons
        rw [if_neg (fun found => member (known.mp found))]
        simp [List.removeAll, member, alone]

theorem nodup_ofList (entries : List (String × α)) : (names (ofList entries)).Nodup := by
  induction entries using List.reverseRecOn with
  | nil => exact .nil
  | append_singleton entries last induction =>
      rw [ofList_concat]
      exact nodup_insert induction _ _

theorem find?_values {entries : Entries α} (distinct : (names entries).Nodup) (wanted : α → Bool) :
    (values entries).find? wanted =
      ((names entries).find? fun name => (get? name entries).any wanted).bind
        fun name => get? name entries := by
  have found : ∀ entry ∈ entries, get? entry.1 entries = some entry.2 :=
    fun entry member => get?_of_mem distinct member
  have alike : entries.find? (wanted ∘ Prod.snd) =
      entries.find? ((fun name => (get? name entries).any wanted) ∘ Prod.fst) := by
    apply List.find?_congr
    intro entry member
    simp [found entry member]
  rw [values, names, List.find?_map, List.find?_map, alike]
  cases chosen : entries.find? ((fun name => (get? name entries).any wanted) ∘ Prod.fst) with
  | none => rfl
  | some entry =>
      exact (found entry (List.mem_of_find?_eq_some chosen)).symm

end Entries

/-! ## What is declared -/

namespace EnumValue

variable (declared : List EnumValue)

/-- The symbols, each at the place at which it was declared first. -/
def symbols : List String := (declared.map EnumValue.name).eraseDups

/-- What a symbol stands for inside. Its last declaration counts. -/
def innerValue? (symbol : String) : Option Json :=
  (declared.reverse.find? fun value => value.name == symbol).map EnumValue.value

def firstSymbol? (value : Json) : Option String :=
  (symbols declared).find? fun symbol =>
    (innerValue? declared symbol).any fun inner => inner.sameValue value

variable {declared}

theorem mem_symbols {symbol : String} :
    symbol ∈ symbols declared ↔ ∃ value ∈ declared, value.name = symbol := by
  rw [symbols, List.mem_eraseDups, List.mem_map]

theorem exists_of_innerValue? {symbol : String} {inner : Json}
    (found : innerValue? declared symbol = some inner) :
    ∃ value ∈ declared, value.name = symbol ∧ value.value = inner := by
  obtain ⟨value, last, rfl⟩ := Option.map_eq_some_iff.mp found
  refine ⟨value, List.mem_reverse.mp (List.mem_of_find?_eq_some last), ?_, rfl⟩
  simpa using List.find?_some last

theorem keyed_of_innerValue? (keyed : ∀ value ∈ declared, value.value.Keyed) {symbol : String}
    {inner : Json} (found : innerValue? declared symbol = some inner) : inner.Keyed := by
  obtain ⟨value, member, _, rfl⟩ := exists_of_innerValue? found
  exact keyed value member

theorem exists_innerValue?_iff {symbol : String} :
    (∃ inner, innerValue? declared symbol = some inner) ↔ symbol ∈ symbols declared := by
  rw [mem_symbols]
  constructor
  · rintro ⟨inner, found⟩
    obtain ⟨value, member, named, _⟩ := exists_of_innerValue? found
    exact ⟨value, member, named⟩
  · rintro ⟨value, member, named⟩
    have isSome : (declared.reverse.find? fun value => value.name == symbol).isSome = true :=
      List.find?_isSome.mpr ⟨value, List.mem_reverse.mpr member, by simp [named]⟩
    obtain ⟨last, found⟩ := Option.isSome_iff_exists.mp isSome
    exact ⟨last.value, by rw [innerValue?, found]; rfl⟩

theorem exists_firstSymbol?_iff {value : Json} :
    (∃ symbol, firstSymbol? declared value = some symbol) ↔
      ∃ symbol inner, innerValue? declared symbol = some inner ∧ inner.sameValue value = true := by
  rw [← Option.isSome_iff_exists, firstSymbol?, List.find?_isSome]
  constructor
  · rintro ⟨symbol, _, stands⟩
    obtain ⟨inner, found, same⟩ := (Option.any_eq_true _ _).mp stands
    exact ⟨symbol, inner, found, same⟩
  · rintro ⟨symbol, inner, found, same⟩
    exact ⟨symbol, exists_innerValue?_iff.mp ⟨inner, found⟩,
      (Option.any_eq_true _ _).mpr ⟨inner, found, same⟩⟩

theorem innerValue?_of_firstSymbol? {value : Json} {symbol : String}
    (first : firstSymbol? declared value = some symbol) :
    ∃ inner, innerValue? declared symbol = some inner ∧ inner.sameValue value = true := by
  rw [firstSymbol?] at first
  have stands := List.find?_some first
  exact (Option.any_eq_true _ _).mp stands

end EnumValue

/-! ## Coercion -/

namespace EnumDefinition

open EnumValue

variable {name : String} {description : Option String} {declared : List EnumValue}

theorem values_ofDeclarations : (ofDeclarations name description declared).values =
    Entries.ofList (declared.map fun value => (value.name, value)) := by
  induction declared using List.reverseRecOn with
  | nil => rfl
  | append_singleton declared last induction =>
      rw [List.map_append, List.map_singleton, Entries.ofList_concat, ← induction, ofDeclarations,
        List.foldl_append]
      rfl

theorem get?_ofDeclarations (symbol : String) :
    Entries.get? symbol (ofDeclarations name description declared).values =
      declared.reverse.find? fun value => value.name == symbol := by
  rw [values_ofDeclarations, Entries.get?_ofList, ← List.map_reverse, List.find?_map,
    Option.map_map]
  exact Option.map_id'

theorem coerceInput_eq_ok_iff {value inner : Json} :
    (ofDeclarations name description declared).coerceInput value = .ok inner ↔
      ∃ symbol, value = .string symbol ∧ innerValue? declared symbol = some inner := by
  cases value with
  | string symbol =>
      simp only [coerceInput, get?_ofDeclarations, innerValue?, Json.string.injEq, exists_eq_left']
      cases declared.reverse.find? fun value => value.name == symbol <;> simp
  | _ => simp [coerceInput]

theorem coerceResult_eq_ok_iff {value given : Json} :
    (ofDeclarations name description declared).coerceResult value = .ok given ↔
      ∃ symbol, given = .string symbol ∧ firstSymbol? declared value = some symbol := by
  have distinct : (Entries.names (ofDeclarations name description declared).values).Nodup :=
    values_ofDeclarations ▸ Entries.nodup_ofList _
  have names : Entries.names (ofDeclarations name description declared).values =
      symbols declared := by
    rw [values_ofDeclarations, Entries.names_ofList, List.map_map]
    rfl
  have alike : ((symbols declared).find? fun symbol =>
      (declared.reverse.find? fun value => value.name == symbol).any
        fun candidate => candidate.value.sameValue value) = firstSymbol? declared value := by
    simp only [firstSymbol?, innerValue?, Option.any_map]
  rw [coerceResult, Entries.find?_values distinct, names]
  simp only [get?_ofDeclarations]
  rw [alike]
  cases first : firstSymbol? declared value with
  | none => simp
  | some symbol =>
      obtain ⟨inner, found, _⟩ := innerValue?_of_firstSymbol? first
      obtain ⟨last, chosen, _⟩ := Option.map_eq_some_iff.mp found
      have named : last.name = symbol := by simpa using List.find?_some chosen
      simp [chosen, named, eq_comm]

section Keyed

variable (keyed : ∀ value ∈ declared, value.value.Keyed)
include keyed

theorem firstSymbol?_congr {first second : Json} (keyedFirst : first.Keyed)
    (keyedSecond : second.Keyed) (same : first.sameValue second = true) :
    firstSymbol? declared first = firstSymbol? declared second := by
  have back := keyedFirst.sameValue_symm keyedSecond same
  apply List.find?_congr
  intro symbol _
  cases found : innerValue? declared symbol with
  | none => rfl
  | some inner =>
      have isKeyed := keyed_of_innerValue? keyed found
      rw [Option.any_some, Option.any_some, Bool.eq_iff_iff]
      exact ⟨fun stands => isKeyed.sameValue_trans stands same,
        fun stands => isKeyed.sameValue_trans stands back⟩

variable (name : String) (description : Option String) {symbol : String} {inner : Json}

theorem exists_coerceResult (found : innerValue? declared symbol = some inner) :
    ∃ first, firstSymbol? declared inner = some first ∧
      (ofDeclarations name description declared).coerceResult inner = .ok (.string first) := by
  obtain ⟨first, chosen⟩ := exists_firstSymbol?_iff.mpr
    ⟨symbol, inner, found, (keyed_of_innerValue? keyed found).sameValue_refl⟩
  exact ⟨first, chosen, coerceResult_eq_ok_iff.mpr ⟨first, rfl, chosen⟩⟩

/-- What two symbols stand for leads to the same symbol if and only if it is the same. -/
theorem coerceResult_eq_iff {other : String} {otherInner : Json}
    (found : innerValue? declared symbol = some inner)
    (foundOther : innerValue? declared other = some otherInner) :
    (ofDeclarations name description declared).coerceResult inner =
        (ofDeclarations name description declared).coerceResult otherInner ↔
      inner.sameValue otherInner = true := by
  have isKeyed := keyed_of_innerValue? keyed found
  obtain ⟨first, chosen, led⟩ := exists_coerceResult keyed name description found
  obtain ⟨firstOther, chosenOther, ledOther⟩ :=
    exists_coerceResult keyed name description foundOther
  rw [led, ledOther]
  constructor
  · rintro ⟨⟩
    obtain ⟨shared, foundShared, same⟩ := innerValue?_of_firstSymbol? chosen
    obtain ⟨again, foundAgain, sameOther⟩ := innerValue?_of_firstSymbol? chosenOther
    rw [foundShared, Option.some.injEq] at foundAgain
    subst foundAgain
    have back := (keyed_of_innerValue? keyed foundShared).sameValue_symm isKeyed same
    exact isKeyed.sameValue_trans back sameOther
  · intro same
    rw [firstSymbol?_congr keyed isKeyed (keyed_of_innerValue? keyed foundOther) same,
      chosenOther] at chosen
    cases chosen
    rfl

end Keyed

/-- The directions of an enum are inverse but for values that symbols share. The symbol that a
value leads to stands for a value that is the same; what a symbol stands for leads to the
first symbol, in the order of declaration, that stands for the same; symbols are told apart
if and only if they stand for different values. Accepted are the declared symbols, given as
strings, and the values that are the same as one that a symbol stands for, and nothing else. -/
theorem coercions_are_inverse (name : String) (description : Option String)
    (keyed : ∀ value ∈ declared, value.value.Keyed) :
    (∀ value symbol,
      (ofDeclarations name description declared).coerceResult value = .ok symbol →
        ∃ inner, (ofDeclarations name description declared).coerceInput symbol = .ok inner ∧
          inner.sameValue value = true) ∧
    (∀ symbol ∈ symbols declared, ∃ inner first,
      innerValue? declared symbol = some inner ∧
      (ofDeclarations name description declared).coerceInput (.string symbol) = .ok inner ∧
      firstSymbol? declared inner = some first ∧
      (ofDeclarations name description declared).coerceResult inner = .ok (.string first)) ∧
    (∀ symbol other inner otherInner, innerValue? declared symbol = some inner →
      innerValue? declared other = some otherInner →
        ((ofDeclarations name description declared).coerceResult inner =
            (ofDeclarations name description declared).coerceResult otherInner ↔
          inner.sameValue otherInner = true)) ∧
    (∀ value, (∃ inner, (ofDeclarations name description declared).coerceInput value = .ok inner) ↔
      ∃ symbol ∈ symbols declared, value = .string symbol) ∧
    ∀ value,
      (∃ symbol, (ofDeclarations name description declared).coerceResult value = .ok symbol) ↔
        ∃ symbol inner, innerValue? declared symbol = some inner ∧
          inner.sameValue value = true := by
  refine ⟨?_, ?_, ?_, ?_, ?_⟩
  · intro value given led
    obtain ⟨symbol, rfl, first⟩ := coerceResult_eq_ok_iff.mp led
    obtain ⟨inner, found, same⟩ := innerValue?_of_firstSymbol? first
    exact ⟨inner, coerceInput_eq_ok_iff.mpr ⟨symbol, rfl, found⟩, same⟩
  · intro symbol member
    obtain ⟨inner, found⟩ := exists_innerValue?_iff.mpr member
    obtain ⟨first, chosen, led⟩ := exists_coerceResult keyed name description found
    exact ⟨inner, first, found, coerceInput_eq_ok_iff.mpr ⟨symbol, rfl, found⟩, chosen, led⟩
  · intro symbol other inner otherInner found foundOther
    exact coerceResult_eq_iff keyed name description found foundOther
  · intro value
    simp only [coerceInput_eq_ok_iff]
    constructor
    · rintro ⟨inner, symbol, given, found⟩
      exact ⟨symbol, exists_innerValue?_iff.mp ⟨inner, found⟩, given⟩
    · rintro ⟨symbol, member, given⟩
      obtain ⟨inner, found⟩ := exists_innerValue?_iff.mpr member
      exact ⟨inner, symbol, given, found⟩
  · intro value
    simp only [coerceResult_eq_ok_iff]
    rw [← exists_firstSymbol?_iff]
    constructor
    · rintro ⟨_, symbol, _, first⟩
      exact ⟨symbol, first⟩
    · rintro ⟨symbol, first⟩
      exact ⟨_, symbol, rfl, first⟩

end EnumDefinition

/-! ## An orchard -/

namespace Orchard

def autumn : Json :=
  .object [("pips", .boolean true), ("months", .array [.integer 9, .integer 10])]

def autumnal : Json :=
  .object [("months", .array [.integer 9, .integer 10]), ("pips", .boolean true)]

def fruits : List EnumValue :=
  [⟨"APPLE", .integer 1, none⟩, .ofName "PEAR", ⟨"PIPPIN", .integer 1, none⟩,
    ⟨"APPLE", autumn, none⟩, ⟨"CODLIN", autumnal, none⟩]

theorem keyed_fruits : ∀ fruit ∈ fruits, fruit.value.Keyed := by
  have months : ∀ item ∈ [Json.integer 9, .integer 10], item.Keyed := by
    simp [Json.Keyed.integer]
  simp only [fruits, autumn, autumnal, EnumValue.ofName, List.forall_mem_cons, List.not_mem_nil,
    false_implies, implies_true, and_true]
  refine ⟨.integer 1, .string _, .integer 1, ?_, ?_⟩
  · exact .object (by decide) (by simp [Json.Keyed.boolean, Json.Keyed.array months])
  · exact .object (by decide) (by simp [Json.Keyed.boolean, Json.Keyed.array months])

/-- Codlins come out as apples, which have kept their place before them, and the number one
as a pippin, since it no longer stands for an apple; nothing stands for a peach. -/
theorem codlins_are_apples :
    (∃ inner, (EnumDefinition.ofDeclarations "Fruit" none fruits).coerceInput (.string "CODLIN") =
        .ok inner ∧
      (EnumDefinition.ofDeclarations "Fruit" none fruits).coerceResult inner =
        .ok (.string "APPLE")) ∧
    (EnumDefinition.ofDeclarations "Fruit" none fruits).coerceResult (.integer 1) ≠
      (EnumDefinition.ofDeclarations "Fruit" none fruits).coerceResult autumn ∧
    ¬ ∃ inner, (EnumDefinition.ofDeclarations "Fruit" none fruits).coerceInput (.string "PEACH") =
      .ok inner := by
  have inverse := EnumDefinition.coercions_are_inverse "Fruit" none keyed_fruits
  refine ⟨?_, ?_, ?_⟩
  · obtain ⟨inner, first, found, led, chosen, back⟩ := inverse.2.1 "CODLIN" (by decide)
    cases found
    have isApple : EnumValue.firstSymbol? fruits autumnal = some "APPLE" := by decide
    cases isApple.symm.trans chosen
    exact ⟨_, led, back⟩
  · intro same
    have alike := (inverse.2.2.1 "PIPPIN" "APPLE" (.integer 1) autumn rfl rfl).mp same
    exact absurd alike (by decide)
  · rw [inverse.2.2.2.1]
    rintro ⟨symbol, member, given⟩
    cases given
    exact absurd member (by decide)

end Orchard

end GraphQuery
