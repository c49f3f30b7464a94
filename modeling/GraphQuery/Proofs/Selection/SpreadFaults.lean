import GraphQuery.Proofs.Selection.SpreadOrder
import Mathlib.Logic.Relation

/-! What the check of spreads finds. It passes the documents in which every spread leads to
a fragment and no fragment leads to itself, and of all others it tells a spread that is to
blame. -/

namespace GraphQuery

/-! ## Spreads that count -/

def FragmentTable.SpreadsTo (table : FragmentTable) (name other : String) : Prop :=
  ∃ fragment, Entries.get? name table = some fragment ∧
    ∃ node ∈ Selection.spreadsAmong fragment.selectionSet.selections, node.name.text = other

namespace Document

/-- A spread in an operation of the document or in a fragment of its table, at any depth. -/
inductive HasSpread (document : Document) (node : FragmentSpread) : Prop where
  | operation {operation : OperationDefinition} (member : operation ∈ document.operations)
      (inside : node ∈ Selection.spreadsAmong operation.selectionSet.selections)
  | fragment {name : String} {fragment : FragmentDefinition}
      (found : Entries.get? name document.fragments = some fragment)
      (inside : node ∈ Selection.spreadsAmong fragment.selectionSet.selections)

/-- A fault with the name and the place of a spread that is to blame: its fragment is not
there, or leads back to the fragment in which it is spread. -/
inductive SpreadFault (document : Document) : SelectionFault → Prop where
  | unknown {node : FragmentSpread} (has : document.HasSpread node)
      (undefined : node.name.text ∉ Entries.names document.fragments) :
      SpreadFault document (.unknownFragment node.name.text node.location)
  | cycle {name : String} {fragment : FragmentDefinition} {node : FragmentSpread}
      (found : Entries.get? name document.fragments = some fragment)
      (inside : node ∈ Selection.spreadsAmong fragment.selectionSet.selections)
      (back : Relation.ReflTransGen document.fragments.SpreadsTo node.name.text name) :
      SpreadFault document (.fragmentCycle node.name.text node.location)

end Document

/-! ## No fragment in an order leads to itself -/

namespace FragmentTable.Ordered

variable {table : FragmentTable} {names : List String}

theorem mem_of_spreadsTo (ordered : table.Ordered names) {name other : String}
    (member : name ∈ names) (spreads : table.SpreadsTo name other) : other ∈ names := by
  obtain ⟨fragment, found, node, inside, rfl⟩ := spreads
  obtain ⟨known, same, within⟩ := ordered.exists_of_mem member
  rw [found, Option.some.injEq] at same
  exact (same ▸ within) node inside

theorem mem_of_leadsTo (ordered : table.Ordered names) {name other : String}
    (member : name ∈ names) (leads : Relation.ReflTransGen table.SpreadsTo name other) :
    other ∈ names := by
  induction leads with
  | refl => exact member
  | tail _ spreads induction => exact ordered.mem_of_spreadsTo induction spreads

/-- What the first fragment spreads comes after it, and never leads back to it. -/
theorem acyclic (ordered : table.Ordered names) :
    ∀ name ∈ names, ¬ Relation.TransGen table.SpreadsTo name name := by
  induction ordered with
  | nil => simp
  | @cons first rest fragment found within fresh ordered induction =>
      intro name member cycle
      rcases List.mem_cons.mp member with rfl | member
      · obtain ⟨next, ⟨known, same, node, inside, rfl⟩, back⟩ :=
          Relation.TransGen.head'_iff.mp cycle
        rw [found, Option.some.injEq] at same
        subst same
        exact fresh (ordered.mem_of_leadsTo (within node inside) back)
      · exact induction name member cycle

end FragmentTable.Ordered

/-! ## Faults -/

namespace Spreads

variable {document : Document} {entered : List String}
  {body : FragmentDefinition → Checked → Except SelectionFault Checked}

/-- Each of the fragments entered has been spread by the one that was entered before it. -/
abbrev Trail (table : FragmentTable) (entered : List String) : Prop :=
  entered.IsChain fun name outer => table.SpreadsTo outer name

theorem Trail.leadsTo {table : FragmentTable} {outer : String} {rest : List String}
    (trail : Trail table (outer :: rest)) {name : String} (member : name ∈ outer :: rest) :
    Relation.ReflTransGen table.SpreadsTo name outer := by
  induction rest generalizing outer with
  | nil =>
      rw [List.mem_singleton.mp member]
  | cons next rest induction =>
      rcases List.mem_cons.mp member with rfl | member
      · exact .refl
      · rcases List.isChain_cons_cons.mp trail with ⟨spreads, trail⟩
        exact (induction trail member).tail spreads

/-- A spread of the document that is come across inside the fragments entered. -/
structure Met (document : Document) (entered : List String) (node : FragmentSpread) : Prop where
  has : document.HasSpread node
  inside : ∀ outer ∈ entered.head?, ∃ fragment,
    Entries.get? outer document.fragments = some fragment ∧
      node ∈ Selection.spreadsAmong fragment.selectionSet.selections

def BodyBlames (document : Document) (entered : List String)
    (body : FragmentDefinition → Checked → Except SelectionFault Checked) : Prop :=
  ∀ fragment checked fault, body fragment checked = .error fault →
    Entries.get? fragment.name.text document.fragments = some fragment →
    Trail document.fragments (fragment.name.text :: entered) → document.SpreadFault fault

theorem Met.trail {node : FragmentSpread} (met : Met document entered node)
    (trail : Trail document.fragments entered) :
    Trail document.fragments (node.name.text :: entered) := by
  cases entered with
  | nil => exact .singleton _
  | cons outer rest =>
      obtain ⟨fragment, found, inside⟩ := met.inside outer rfl
      exact List.isChain_cons_cons.mpr ⟨⟨fragment, found, node, inside, rfl⟩, trail⟩

theorem spreadFault_of_spread (blames : BodyBlames document entered body)
    (trail : Trail document.fragments entered) {node : FragmentSpread}
    (met : Met document entered node) {checked : Checked} {fault : SelectionFault}
    (failed : checkOne document.fragments entered body (.spread node) checked = .error fault) :
    document.SpreadFault fault := by
  simp only [checkOne] at failed
  split at failed
  next undefined =>
    cases failed
    exact .unknown met.has (Entries.get?_eq_none_iff.mp undefined)
  next fragment found =>
    have named : fragment.name.text = node.name.text :=
      (FragmentTable.keyed_ofDefinitions document.fragmentDefinitions).name_eq found
    split at failed
    next known =>
      cases failed
      rw [List.contains_iff_mem] at known
      cases entered with
      | nil => cases known
      | cons outer rest =>
          obtain ⟨around, standing, inside⟩ := met.inside outer rfl
          exact .cycle standing inside (trail.leadsTo known)
    next =>
      split at failed
      · cases failed
      · rcases Except.of_bind_error failed with failed | ⟨later, _, failed⟩
        · exact blames fragment checked fault failed (named ▸ found) (named ▸ met.trail trail)
        · cases failed

mutual

theorem spreadFault_of_checkOne (blames : BodyBlames document entered body)
    (trail : Trail document.fragments entered) :
    (selection : Selection) → (∀ node ∈ selection.spreads, Met document entered node) →
    {checked : Checked} → {fault : SelectionFault} →
    checkOne document.fragments entered body selection checked = .error fault →
    document.SpreadFault fault
  | .leaf head, met, checked, fault, failed => by cases failed
  | .branch head selections braces, met, checked, fault, failed =>
      spreadFault_of_checkAll blames trail selections met failed
  | .inline head selections braces, met, checked, fault, failed =>
      spreadFault_of_checkAll blames trail selections met failed
  | .spread node, met, checked, fault, failed =>
      spreadFault_of_spread blames trail (met node (List.mem_singleton_self node)) failed

theorem spreadFault_of_checkAll (blames : BodyBlames document entered body)
    (trail : Trail document.fragments entered) :
    (selections : List Selection) →
    (∀ node ∈ Selection.spreadsAmong selections, Met document entered node) →
    {checked : Checked} → {fault : SelectionFault} →
    checkAll document.fragments entered body selections checked = .error fault →
    document.SpreadFault fault
  | [], met, checked, fault, failed => by cases failed
  | selection :: rest, met, checked, fault, failed => by
      rcases Except.of_bind_error failed with failed | ⟨between, _, failed⟩
      · exact spreadFault_of_checkOne blames trail selection
          (fun node member => met node (List.mem_append_left _ member)) failed
      · exact spreadFault_of_checkAll blames trail rest
          (fun node member => met node (List.mem_append_right _ member)) failed

end

theorem bodyBlames_checkBody (document : Document) (levels : Nat) (entered : List String) :
    BodyBlames document entered (checkBody document.fragments levels entered) := by
  induction levels generalizing entered with
  | zero =>
      intro fragment checked fault failed
      cases failed
  | succ levels induction =>
      intro fragment checked fault failed found trail
      refine spreadFault_of_checkAll (induction _) trail _ (fun node member => ?_) failed
      refine ⟨.fragment found member, ?_⟩
      rintro outer ⟨⟩
      exact ⟨fragment, found, member⟩

theorem spreadFault_of_checkOperations {operations : List OperationDefinition}
    (known : operations ⊆ document.operations) {checked : Checked} {fault : SelectionFault}
    (failed : checkOperations document.fragments operations checked = .error fault) :
    document.SpreadFault fault := by
  induction operations generalizing checked with
  | nil => cases failed
  | cons operation rest induction =>
      rcases List.cons_subset.mp known with ⟨member, others⟩
      rcases Except.of_bind_error failed with failed | ⟨between, _, failed⟩
      · exact spreadFault_of_checkAll (bodyBlames_checkBody document _ []) .nil _
          (fun node inside => ⟨.operation member inside, by simp⟩) failed
      · exact induction others failed

theorem spreadFault_of_checkFragments {fragments : List FragmentDefinition} {checked : Checked}
    (firsts : StandFirst document.fragments fragments checked)
    (ordered : document.fragments.Ordered checked) {fault : SelectionFault}
    (failed : checkFragments document.fragments fragments checked = .error fault) :
    document.SpreadFault fault := by
  have keyed := FragmentTable.keyed_ofDefinitions document.fragmentDefinitions
  induction fragments generalizing checked with
  | nil => cases failed
  | cons fragment rest induction =>
      simp only [checkFragments, List.contains_iff_mem] at failed
      split at failed
      next known => exact induction (firsts.rest (List.Subset.refl _) known) ordered failed
      next unknown =>
        rcases Except.of_bind_error failed with failed | ⟨between, body, failed⟩
        · exact bodyBlames_checkBody document _ [] fragment checked fault failed
            (firsts unknown (by simp)) (.singleton _)
        · rcases progress_first keyed firsts unknown body ordered with ⟨extended, inside⟩
          exact induction (firsts.rest inside List.mem_cons_self) extended failed

end Spreads

namespace Document

variable {document : Document}

theorem spreadFault_of_checkSpreads {fault : SelectionFault}
    (failed : document.checkSpreads = .error fault) : document.SpreadFault fault := by
  have keyed := FragmentTable.keyed_ofDefinitions document.fragmentDefinitions
  rcases Except.of_bind_error failed with failed | ⟨checked, passed, failed⟩
  · exact Spreads.spreadFault_of_checkOperations (List.Subset.refl _) failed
  rcases Except.of_bind_error failed with failed | ⟨later, _, failed⟩
  · have ordered := (Spreads.progress_checkOperations keyed passed .nil).1
    exact Spreads.spreadFault_of_checkFragments
      (fun _ first => (FragmentTable.get?_ofDefinitions _ _).trans first) ordered failed
  · cases failed

theorem Order.name_mem {names : List String} (order : document.Order names)
    {node : FragmentSpread} (has : document.HasSpread node) : node.name.text ∈ names := by
  cases has with
  | operation member inside => exact order.operations _ member node inside
  | fragment found inside =>
      exact order.ordered.mem_of_spreadsTo (order.complete found) ⟨_, found, node, inside, rfl⟩

/-- A document passes the check of its spreads if and only if all that count lead to
fragments of the table and none of these leads to itself. If it does not pass, a spread
that is to blame is told. -/
theorem checkSpreads_is_exact (document : Document) :
    (document.checkSpreads = .ok () ↔
      (∀ node, document.HasSpread node →
        node.name.text ∈ Entries.names document.fragments) ∧
      ∀ name ∈ Entries.names document.fragments,
        ¬ Relation.TransGen document.fragments.SpreadsTo name name) ∧
    ∀ fault, document.checkSpreads = .error fault → document.SpreadFault fault := by
  refine ⟨⟨fun passed => ?_, fun ⟨known, acyclic⟩ => ?_⟩,
    fun fault => spreadFault_of_checkSpreads⟩
  · obtain ⟨names, order⟩ := exists_order_of_checkSpreads passed
    refine ⟨fun node has => order.ordered.subset (order.name_mem has), fun name member => ?_⟩
    obtain ⟨fragment, found⟩ := Option.ne_none_iff_exists'.mp
      fun missing => Entries.get?_eq_none_iff.mp missing member
    exact order.ordered.acyclic name (order.complete found)
  · cases checked : document.checkSpreads with
    | ok => rfl
    | error fault =>
        cases spreadFault_of_checkSpreads checked with
        | unknown has undefined => exact absurd (known _ has) undefined
        | @cycle name fragment node found inside back =>
            have around : document.fragments.SpreadsTo name node.name.text :=
              ⟨fragment, found, node, inside, rfl⟩
            exact absurd (Relation.TransGen.head' around back)
              (acyclic name (Entries.mem_names_of_get? found))

end Document

end GraphQuery
