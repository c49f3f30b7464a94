import GraphQuery.Selection.Inclusion

namespace GraphQuery

/-! The fields that selections ask of an object. Fragments are expanded where
they are spread, as far as they apply to the type of the object, and fields with
the same response key are put together. -/

structure Field where
  head : FieldHead
  selectionSet : Option SelectionSet

/-- The fields of one response key. The first of them says what is resolved. -/
structure MergedField where
  key : String
  first : Field
  others : List Field

namespace MergedField

def nodes (merged : MergedField) : List Field := merged.first :: merged.others

def name (merged : MergedField) : String := merged.first.head.name.text

def arguments (merged : MergedField) : List Argument := merged.first.head.arguments

def location (merged : MergedField) : Location := merged.first.head.location

def selectionSets (merged : MergedField) : List SelectionSet :=
  merged.nodes.filterMap Field.selectionSet

end MergedField

abbrev FieldMap := List MergedField

namespace FieldMap

def add (field : Field) : FieldMap → FieldMap
  | [] => [⟨field.head.responseKey, field, []⟩]
  | merged :: rest =>
      if merged.key = field.head.responseKey then
        { merged with others := merged.others ++ [field] } :: rest
      else merged :: add field rest

def get? (key : String) (fields : FieldMap) : Option MergedField :=
  fields.find? fun merged => merged.key == key

end FieldMap

/-! ## Collecting -/

/-- What selections are expanded for: an object type of a schema, with the
fragments and variables of a request. -/
structure Expansion (ρ : Type) where
  schema : Schema ρ
  object : ObjectDefinition ρ
  fragments : FragmentTable
  bindings : Variables

/-- The fields found so far, and the fragments that have been expanded for them.
To expand a fragment again would add nothing. -/
structure Collected where
  expanded : List String
  fields : FieldMap

namespace Expansion

variable {ρ : Type}

def applies (expansion : Expansion ρ) : Option Name → Bool
  | none => true
  | some condition =>
      condition.text == expansion.object.name ||
        expansion.schema.isPossibleType condition.text expansion.object.name

mutual
/-- Collect from selections inside the fragments `entered`. The body of a
fragment that is spread here for the first time is left to `body`. -/
def collectAll (expansion : Expansion ρ) (entered : List String)
    (body : FragmentDefinition → Collected → Except SelectionFault Collected) :
    List Selection → Collected → Except SelectionFault Collected
  | [], collected => .ok collected
  | selection :: rest, collected => do
      let collected ← collectOne expansion entered body selection collected
      collectAll expansion entered body rest collected

def collectOne (expansion : Expansion ρ) (entered : List String)
    (body : FragmentDefinition → Collected → Except SelectionFault Collected) :
    Selection → Collected → Except SelectionFault Collected
  | .leaf head, collected => do
      if ← isIncluded expansion.bindings head.directives then
        return { collected with fields := collected.fields.add ⟨head, none⟩ }
      else return collected
  | .branch head selections braces, collected => do
      if ← isIncluded expansion.bindings head.directives then
        return { collected with
          fields := collected.fields.add ⟨head, some ⟨selections, braces⟩⟩ }
      else return collected
  | .inline head selections _, collected => do
      if (← isIncluded expansion.bindings head.directives) &&
          expansion.applies head.typeCondition then
        collectAll expansion entered body selections collected
      else return collected
  | .spread node, collected => do
      if ← isIncluded expansion.bindings node.directives then
        match Entries.get? node.name.text expansion.fragments with
        | none => .error (.unknownFragment node.name.text node.location)
        | some fragment =>
            if !expansion.applies (some fragment.typeCondition) then return collected
            else if entered.contains node.name.text then
              .error (.fragmentCycle node.name.text node.location)
            else if collected.expanded.contains node.name.text then return collected
            else
              body fragment
                { collected with expanded := node.name.text :: collected.expanded }
      else return collected
end

/-- Collect from the body of a fragment. The fragments entered on the way to a
selection all have different names, so the size of the table is enough `levels`. -/
def collectBody (expansion : Expansion ρ) :
    (levels : Nat) → List String → FragmentDefinition → Collected →
      Except SelectionFault Collected
  | 0, _, _, collected => .ok collected
  | levels + 1, entered, fragment, collected =>
      let entered := fragment.name.text :: entered
      collectAll expansion entered (collectBody expansion levels entered)
        fragment.selectionSet.selections collected

def collectSets (expansion : Expansion ρ) :
    List SelectionSet → Collected → Except SelectionFault Collected
  | [], collected => .ok collected
  | set :: rest, collected => do
      let collected ← collectAll expansion []
        (collectBody expansion expansion.fragments.length []) set.selections collected
      collectSets expansion rest collected

def merge (expansion : Expansion ρ) (sets : List SelectionSet) :
    Except SelectionFault FieldMap := do
  let collected ← expansion.collectSets sets ⟨[], []⟩
  return collected.fields

end Expansion

end GraphQuery
