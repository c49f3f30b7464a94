import GraphQuery.Proofs.Selection.InlinedFields
import GraphQuery.Proofs.Selection.MergedFields

/-! What can keep selections from being merged. In a document whose spreads have been
checked, it is only a condition without a truth value. -/

namespace GraphQuery

/-! ## Selection sets of a document -/

/-- A selection set stands among selections, at any depth, but not inside fragments. -/
inductive Selection.HasSet : List Selection → SelectionSet → Prop where
  | branch {head : FieldHead} {selections : List Selection} {braces : Span}
      {rest : List Selection} : HasSet (.branch head selections braces :: rest) ⟨selections, braces⟩
  | inBranch {head : FieldHead} {selections : List Selection} {braces : Span}
      {rest : List Selection} {set : SelectionSet} (inside : HasSet selections set) :
      HasSet (.branch head selections braces :: rest) set
  | inline {head : InlineHead} {selections : List Selection} {braces : Span}
      {rest : List Selection} : HasSet (.inline head selections braces :: rest) ⟨selections, braces⟩
  | inInline {head : InlineHead} {selections : List Selection} {braces : Span}
      {rest : List Selection} {set : SelectionSet} (inside : HasSet selections set) :
      HasSet (.inline head selections braces :: rest) set
  | later {selection : Selection} {rest : List Selection} {set : SelectionSet}
      (has : HasSet rest set) : HasSet (selection :: rest) set

inductive Document.HasSet (document : Document) : SelectionSet → Prop where
  | operation {operation : OperationDefinition} (member : operation ∈ document.operations) :
      HasSet document operation.selectionSet
  | fragment {name : String} {fragment : FragmentDefinition}
      (found : Entries.get? name document.fragments = some fragment) :
      HasSet document fragment.selectionSet
  | inside {outer set : SelectionSet} (has : HasSet document outer)
      (inner : Selection.HasSet outer.selections set) : HasSet document set

theorem Selection.HasSet.within {names : List String} {selections : List Selection}
    {set : SelectionSet} (has : HasSet selections set) (within : SpreadsWithin names selections) :
    SpreadsWithin names set.selections := by
  induction has with
  | branch => exact (spreadsWithin_cons.mp within).1
  | inBranch _ induction => exact induction (spreadsWithin_cons.mp within).1
  | inline => exact (spreadsWithin_cons.mp within).1
  | inInline _ induction => exact induction (spreadsWithin_cons.mp within).1
  | later _ induction => exact induction (spreadsWithin_cons.mp within).2

namespace Document

variable {document : Document}

theorem Order.within_of_hasSet {names : List String} (order : document.Order names)
    {set : SelectionSet} (has : document.HasSet set) :
    Selection.SpreadsWithin names set.selections := by
  induction has with
  | operation member => exact order.operations _ member
  | fragment found =>
      rcases order.ordered.exists_of_mem (order.complete found) with ⟨known, same, within⟩
      rw [found, Option.some.injEq] at same
      exact same ▸ within
  | inside _ inner induction => exact inner.within induction

theorem hasSet_of_offers {selections : List Selection} {field : Field}
    (offers : Selection.Offers document.fragments selections field)
    (all : ∀ set, Selection.HasSet selections set → document.HasSet set) :
    ∀ set, field.selectionSet = some set → document.HasSet set := by
  induction offers with
  | leaf => nofun
  | branch =>
      rintro _ ⟨⟩
      exact all _ .branch
  | inline _ induction => exact induction fun set inside => all set (.inInline inside)
  | spread found _ induction => exact induction fun set inner => .inside (.fragment found) inner
  | later _ induction => exact induction fun set has => all set (.later has)

theorem hasSet_of_merge {ρ : Type} {expansion : Expansion ρ}
    (known : expansion.fragments = document.fragments) {sets : List SelectionSet}
    {fields : FieldMap} (merged : expansion.merge sets = .ok fields)
    (all : ∀ set ∈ sets, document.HasSet set) :
    ∀ field ∈ fields, ∀ set ∈ field.selectionSets, document.HasSet set := by
  have holds := Expansion.holds_merge
    (fun field => ∀ set, field.selectionSet = some set → document.HasSet set) merged
    fun set member field offers =>
      hasSet_of_offers (known ▸ offers) fun inner inside => .inside (all set member) inside
  exact holds.selectionSets

end Document

/-! ## Conditions without a truth value -/

/-- A condition is to blame, and not the spreads of fragments. -/
def SelectionFault.IsDirective (fault : SelectionFault) : Prop :=
  ∃ name location, fault = .invalidDirective name location

theorem isDirective_of_isIncluded {bindings : Variables} {directives : List Directive}
    {fault : SelectionFault} (refused : isIncluded bindings directives = .error fault) :
    fault.IsDirective := by
  induction directives with
  | nil => cases refused
  | cons directive rest induction =>
      unfold isIncluded at refused
      split at refused
      · exact induction refused
      · split at refused
        · cases refused
          exact ⟨_, _, rfl⟩
        · split at refused
          · exact induction refused
          · cases refused

namespace Selection

variable {bindings : Variables} {applies : Option Name → Bool} {fault : SelectionFault}

mutual

theorem isDirective_of_fieldsOf : (selection : Selection) →
    fieldsOf bindings applies selection = .error fault → fault.IsDirective
  | .leaf head, refused => by
      rw [fieldsOf] at refused
      rcases Except.of_bind_error refused with condition | ⟨_ | _, _, refused⟩
      · exact isDirective_of_isIncluded condition
      · cases refused
      · cases refused
  | .branch head selections braces, refused => by
      rw [fieldsOf] at refused
      rcases Except.of_bind_error refused with condition | ⟨_ | _, _, refused⟩
      · exact isDirective_of_isIncluded condition
      · cases refused
      · cases refused
  | .inline head selections braces, refused => by
      rw [fieldsOf] at refused
      rcases Except.of_bind_error refused with condition | ⟨included, _, refused⟩
      · exact isDirective_of_isIncluded condition
      · split at refused
        · exact isDirective_of_fieldsAmong selections refused
        · cases refused
  | .spread node, refused => by cases refused

theorem isDirective_of_fieldsAmong : (selections : List Selection) →
    fieldsAmong bindings applies selections = .error fault → fault.IsDirective
  | [], refused => by cases refused
  | selection :: rest, refused => by
      rw [fieldsAmong] at refused
      rcases Except.of_bind_error refused with here | ⟨_, _, refused⟩
      · exact isDirective_of_fieldsOf selection here
      · rcases Except.of_bind_error refused with there | ⟨_, _, refused⟩
        · exact isDirective_of_fieldsAmong rest there
        · cases refused

end

end Selection

/-- Selections whose spreads lead to fragments in order can only fail to be merged because of
a condition. -/
theorem Expansion.isDirective_of_merge {ρ : Type} {expansion : Expansion ρ} {names : List String}
    (keyed : expansion.fragments.Keyed) (ordered : expansion.fragments.Ordered names)
    {sets : List SelectionSet} (within : ∀ set ∈ sets, Selection.SpreadsWithin names set.selections)
    {fault : SelectionFault} (refused : expansion.merge sets = .error fault) :
    fault.IsDirective := by
  -- without spreads, nothing but conditions is looked at
  rcases expansion.merge_inlined keyed ordered within (.self _ sets) expansion.fragments
    with ⟨other, same, also⟩ | ⟨_, _, done, _⟩
  · rw [refused, Except.error.injEq] at same
    subst same
    have bare : ∀ set ∈ sets.map (SelectionSet.inlined expansion.fragments),
        Selection.spreadsAmong set.selections = [] := by
      intro set member
      rcases List.mem_map.mp member with ⟨source, inside, rfl⟩
      exact ordered.spreadsAmong_inline (within source inside)
    rw [merge_of_bare bare] at also
    cases asked : expansion.asks
        ((sets.map (SelectionSet.inlined expansion.fragments)).flatMap
          SelectionSet.selections) with
    | error other =>
        rw [asked] at also
        cases also
        exact Selection.isDirective_of_fieldsAmong _ asked
    | ok fields =>
        rw [asked] at also
        cases also
  · rw [refused] at done
    cases done

end GraphQuery
