import GraphQuery.Proofs.Selection.InlinedFields
import GraphQuery.Proofs.Selection.SpreadOrder
import GraphQuery.Proofs.Selection.Traversal
import GraphQuery.Selection.Depth

/-! Fields are collected, spreads are checked and depths are measured by traversals that go from
fragment to fragment. Each of them keeps in mind in its own way which fragments it has entered:
so each ends, and enters the body of no fragment twice, whatever the fragments spread. -/

namespace GraphQuery

open Traversal

namespace Selection

theorem weight_le (selections : List Selection) :
    weight sizeOf selections ≤ sizeOf selections := by
  induction selections with
  | nil => exact Nat.zero_le _
  | cons selection rest induction =>
      rw [weight, List.cons.sizeOf_spec]
      omega

theorem weight_le_branch (head : FieldHead) (selections : List Selection) (braces : Span) :
    weight sizeOf selections ≤ sizeOf (branch head selections braces) := by
  have bound := weight_le selections
  rw [branch.sizeOf_spec]
  omega

theorem weight_le_inline (head : InlineHead) (selections : List Selection) (braces : Span) :
    weight sizeOf selections ≤ sizeOf (inline head selections braces) := by
  have bound := weight_le selections
  rw [inline.sizeOf_spec]
  omega

end Selection

/-! ## Collecting fields -/

namespace Expansion

variable {ρ : Type} {expansion : Expansion ρ}

/-- What is done at a selection when fields are collected. A fragment that is entered is put
down as expanded before its body is gone through. -/
def visit (expansion : Expansion ρ) : Traversal Selection Collected SelectionFault :=
  fun entered collected selection =>
    match isIncluded expansion.bindings selection.directives with
    | .error fault => .fail fault
    | .ok false => .pass collected
    | .ok true =>
        match selection with
        | .leaf head => .pass { collected with fields := collected.fields.add ⟨head, none⟩ }
        | .branch head selections braces =>
            .pass { collected with
              fields := collected.fields.add ⟨head, some ⟨selections, braces⟩⟩ }
        | .inline head selections _ =>
            if expansion.applies head.typeCondition then
              .enter ⟨none, entered, selections, collected, id⟩
            else .pass collected
        | .spread node =>
            match Entries.get? node.name.text expansion.fragments with
            | none => .fail (.unknownFragment node.name.text node.location)
            | some fragment =>
                if !expansion.applies (some fragment.typeCondition) then .pass collected
                else if entered.contains node.name.text then
                  .fail (.fragmentCycle node.name.text node.location)
                else if collected.expanded.contains node.name.text then .pass collected
                else
                  .enter {
                    fragment := some node.name.text
                    entered := fragment.name.text :: entered
                    items := fragment.selectionSet.selections
                    start := { collected with expanded := node.name.text :: collected.expanded }
                    finish := id }

def seen (_ : List String) (collected : Collected) : List String := collected.expanded

theorem guarded_visit (expansion : Expansion ρ) :
    Guarded expansion.visit seen (Entries.names expansion.fragments) sizeOf := by
  intro entered collected selection
  simp only [visit]
  split
  · trivial
  · exact .refl _
  · split
    · exact .refl _
    · exact .refl _
    · split
      · exact .into rfl rfl rfl (fun _ => rfl) (Selection.weight_le_inline _ _ _)
      · exact .refl _
    next node =>
      split
      · trivial
      next fragment found =>
        split
        · exact .refl _
        · split
          · trivial
          · split
            · exact .refl _
            next fresh =>
              rw [List.contains_iff_mem] at fresh
              refine ⟨?_, .refl _, fun _ _ => .refl _, .inl ⟨_, rfl, ?_⟩⟩
              · rintro _ ⟨⟩
                exact fresh
              · exact Entries.mem_names_of_get? found

theorem collectAll_eq_foldlM (entered : List String)
    (body : FragmentDefinition → Collected → Except SelectionFault Collected)
    (selections : List Selection) (collected : Collected) :
    collectAll expansion entered body selections collected =
      selections.foldlM
        (fun collected selection => collectOne expansion entered body selection collected)
        collected := by
  induction selections generalizing collected with
  | nil => rfl
  | cons selection rest induction => simp only [collectAll, List.foldlM_cons, induction]

def answer (expansion : Expansion ρ) (levels : Nat) (entered : List String)
    (collected : Collected) (selection : Selection) : Except SelectionFault Collected :=
  collectOne expansion entered (collectBody expansion levels entered) selection collected

theorem answers_visit (expansion : Expansion ρ) :
    Answers expansion.visit seen (Entries.names expansion.fragments) expansion.answer := by
  intro levels entered collected enough selection
  cases selection with
  | leaf head =>
      simp only [visit, answer, collectOne, Selection.directives]
      rcases isIncluded expansion.bindings head.directives with fault | ⟨_ | _⟩ <;> rfl
  | branch head selections braces =>
      simp only [visit, answer, collectOne, Selection.directives]
      rcases isIncluded expansion.bindings head.directives with fault | ⟨_ | _⟩ <;> rfl
  | inline head selections braces =>
      simp only [visit, answer, collectOne, Selection.directives]
      rcases isIncluded expansion.bindings head.directives with fault | ⟨_ | _⟩
      · rfl
      · rfl
      · simp only [Except.ok_bind, Bool.true_and]
        split
        · refine ⟨levels, enough, ?_⟩
          rw [collectAll_eq_foldlM, Except.map_id]
          rfl
        · rfl
  | spread node =>
      simp only [visit, answer, collectOne, Selection.directives]
      rcases isIncluded expansion.bindings node.directives with fault | ⟨_ | _⟩
      · rfl
      · rfl
      · simp only [Except.ok_bind, if_true]
        cases found : Entries.get? node.name.text expansion.fragments with
        | none => rfl
        | some fragment =>
            dsimp only
            cases expansion.applies (some fragment.typeCondition) with
            | false => exact rfl
            | true =>
                cases entered.contains node.name.text with
                | true => exact rfl
                | false =>
                    cases expanded : collected.expanded.contains node.name.text with
                    | true => exact rfl
                    | false =>
                        have fresh : node.name.text ∉ collected.expanded := by
                          simpa using expanded
                        obtain ⟨below, rfl, enoughBelow⟩ := exists_below
                          (Entries.mem_names_of_get? found) fresh (List.Subset.refl _) enough
                        refine ⟨below, enoughBelow, ?_⟩
                        rw [Except.map_id]
                        exact collectAll_eq_foldlM _ _ _ _

theorem endsOnce_collectSets (expansion : Expansion ρ) (sets : List SelectionSet) :
    EndsOnce expansion.visit seen (sets.flatMap SelectionSet.selections) ⟨[], []⟩
      (expansion.collectSets sets ⟨[], []⟩) := by
  rw [collectSets_eq, collectAll_eq_foldlM]
  exact endsOnce expansion.guarded_visit expansion.answers_visit rfl _
    (Nat.le_of_eq (Entries.length_names _))

end Expansion

/-! ## Checking spreads -/

namespace Spreads

variable {table : FragmentTable}

inductive Part where
  | operation (operation : OperationDefinition)
  | fragment (fragment : FragmentDefinition)
  | selection (selection : Selection)

def among (selections : List Selection) : List Part := selections.map .selection

noncomputable def size : Part → Nat
  | .operation operation => sizeOf operation.selectionSet.selections
  | .fragment fragment => sizeOf fragment.selectionSet.selections
  | .selection selection => sizeOf selection

theorem weight_among (selections : List Selection) :
    weight size (among selections) = weight sizeOf selections := by
  induction selections with
  | nil => rfl
  | cons selection rest induction => exact congrArg (sizeOf selection + 1 + ·) induction

theorem weight_among_le (selections : List Selection) :
    weight size (among selections) ≤ sizeOf selections :=
  (weight_among selections).trans_le (Selection.weight_le selections)

def seen (entered : List String) (checked : Checked) : List String := entered ++ checked

/-- What is done at a part of a document when spreads are checked. -/
def visit (table : FragmentTable) : Traversal Part Checked SelectionFault :=
  fun entered checked part =>
    match part with
    | .operation operation =>
        .enter ⟨none, entered, among operation.selectionSet.selections, checked, id⟩
    | .fragment fragment =>
        -- Where a definition stands nothing is being gone through.
        if (seen entered checked).contains fragment.name.text then .pass checked
        else
          .enter {
            fragment := some fragment.name.text
            entered := fragment.name.text :: entered
            items := among fragment.selectionSet.selections
            start := checked
            finish := fun checked => fragment.name.text :: checked }
    | .selection (.leaf _) => .pass checked
    | .selection (.branch _ selections _) =>
        .enter ⟨none, entered, among selections, checked, id⟩
    | .selection (.inline _ selections _) =>
        .enter ⟨none, entered, among selections, checked, id⟩
    | .selection (.spread node) =>
        match Entries.get? node.name.text table with
        | none => .fail (.unknownFragment node.name.text node.location)
        | some fragment =>
            if entered.contains node.name.text then
              .fail (.fragmentCycle node.name.text node.location)
            else if checked.contains node.name.text then .pass checked
            else
              .enter {
                fragment := some node.name.text
                entered := fragment.name.text :: entered
                items := among fragment.selectionSet.selections
                start := checked
                finish := fun checked => node.name.text :: checked }

theorem guarded_visit (keyed : FragmentTable.Keyed table) :
    Guarded (visit table) seen (Entries.names table) size := by
  intro entered checked part
  cases part with
  | operation operation =>
      exact .into rfl rfl rfl (fun _ => rfl) (weight_among_le _)
  | fragment fragment =>
      simp only [visit]
      split
      · exact .refl _
      next fresh =>
        rw [List.contains_iff_mem] at fresh
        refine ⟨?_, .refl _, fun inner _ => List.perm_middle, .inr (weight_among_le _)⟩
        rintro _ ⟨⟩
        exact fresh
  | selection selection =>
      cases selection with
      | leaf head => exact .refl _
      | branch head selections braces =>
          exact .into rfl rfl rfl (fun _ => rfl)
            ((weight_among _).trans_le (Selection.weight_le_branch _ _ _))
      | inline head selections braces =>
          exact .into rfl rfl rfl (fun _ => rfl)
            ((weight_among _).trans_le (Selection.weight_le_inline _ _ _))
      | spread node =>
          simp only [visit]
          split
          · trivial
          next fragment found =>
            split
            · trivial
            next outside =>
              split
              · exact .refl _
              next unknown =>
                rw [List.contains_iff_mem] at outside unknown
                rw [keyed.name_eq found]
                refine ⟨?_, .refl _, fun inner _ => List.perm_middle,
                  .inl ⟨_, rfl, Entries.mem_names_of_get? found⟩⟩
                rintro _ ⟨⟩
                exact fun member => (List.mem_append.mp member).elim outside unknown

def answer (table : FragmentTable) (levels : Nat) (entered : List String) (checked : Checked) :
    Part → Except SelectionFault Checked
  | .operation operation =>
      checkAll table entered (checkBody table levels entered) operation.selectionSet.selections
        checked
  | .fragment fragment =>
      if (seen entered checked).contains fragment.name.text then .ok checked
      else do
        let checked ← checkBody table (levels + 1) entered fragment checked
        return fragment.name.text :: checked
  | .selection selection =>
      checkOne table entered (checkBody table levels entered) selection checked

theorem checkAll_eq_foldlM (levels : Nat) (entered : List String) (selections : List Selection)
    (checked : Checked) :
    checkAll table entered (checkBody table levels entered) selections checked =
      (among selections).foldlM (answer table levels entered) checked := by
  induction selections generalizing checked with
  | nil => rfl
  | cons selection rest induction =>
      simp only [checkAll, induction]
      rfl

theorem answers_visit (keyed : FragmentTable.Keyed table) :
    Answers (visit table) seen (Entries.names table) (answer table) := by
  intro levels entered checked enough part
  cases part with
  | operation operation =>
      refine ⟨levels, enough, ?_⟩
      rw [Except.map_id]
      exact checkAll_eq_foldlM _ _ _ _
  | fragment fragment =>
      simp only [visit, answer]
      split
      · rfl
      · refine ⟨levels, (unseen_anti (List.subset_cons_self _ _)).trans enough, ?_⟩
        rw [checkBody, checkAll_eq_foldlM]
        rfl
  | selection selection =>
      cases selection with
      | leaf head => rfl
      | branch head selections braces =>
          refine ⟨levels, enough, ?_⟩
          rw [Except.map_id]
          exact checkAll_eq_foldlM _ _ _ _
      | inline head selections braces =>
          refine ⟨levels, enough, ?_⟩
          rw [Except.map_id]
          exact checkAll_eq_foldlM _ _ _ _
      | spread node =>
          simp only [visit, answer, checkOne]
          cases found : Entries.get? node.name.text table with
          | none => rfl
          | some fragment =>
              dsimp only
              cases inside : entered.contains node.name.text with
              | true => exact rfl
              | false =>
                  cases known : checked.contains node.name.text with
                  | true => exact rfl
                  | false =>
                      have fresh : node.name.text ∉ seen entered checked := by
                        simp only [seen, List.mem_append, not_or]
                        exact ⟨by simpa using inside, by simpa using known⟩
                      obtain ⟨below, rfl, enoughBelow⟩ := exists_below
                        (Entries.mem_names_of_get? found) fresh (List.Subset.refl _) enough
                      rw [← keyed.name_eq found] at enoughBelow ⊢
                      refine ⟨below, enoughBelow, ?_⟩
                      simp only [Bool.false_eq_true, if_false, checkBody, checkAll_eq_foldlM]
                      rfl

theorem checkOperations_eq_foldlM (operations : List OperationDefinition) (checked : Checked) :
    checkOperations table operations checked =
      (operations.map Part.operation).foldlM (answer table table.length []) checked := by
  induction operations generalizing checked with
  | nil => rfl
  | cons operation rest induction =>
      simp only [checkOperations, induction]
      rfl

theorem checkFragments_eq_foldlM (fragments : List FragmentDefinition) (checked : Checked) :
    checkFragments table fragments checked =
      (fragments.map Part.fragment).foldlM (answer table table.length []) checked := by
  induction fragments generalizing checked with
  | nil => rfl
  | cons fragment rest induction =>
      have here : answer table table.length [] checked (.fragment fragment) =
          if checked.contains fragment.name.text then .ok checked
          else do
            let checked ← checkBody table (table.length + 1) [] fragment checked
            return fragment.name.text :: checked := rfl
      rw [checkFragments, List.map_cons, List.foldlM_cons, here]
      split
      · rw [Except.ok_bind, induction]
      · simp only [induction, bind_assoc, pure_bind]

end Spreads

/-- The parts of a document in the order in which they are checked, operations first. -/
def Document.parts (document : Document) : List Spreads.Part :=
  document.operations.map .operation ++ document.fragmentDefinitions.map .fragment

theorem Document.endsOnce_checkSpreads (document : Document) :
    ∃ result, EndsOnce (Spreads.visit document.fragments) Spreads.seen document.parts [] result ∧
      document.checkSpreads = result.map fun _ => () := by
  have keyed : document.fragments.Keyed :=
    FragmentTable.keyed_ofDefinitions document.fragmentDefinitions
  refine ⟨_, endsOnce (Spreads.guarded_visit keyed) (Spreads.answers_visit keyed) rfl _
    (Nat.le_of_eq (Entries.length_names _)), ?_⟩
  simp only [checkSpreads, parts, List.foldlM_append, Spreads.checkOperations_eq_foldlM,
    Spreads.checkFragments_eq_foldlM]
  rcases (document.operations.map Spreads.Part.operation).foldlM
    (Spreads.answer document.fragments document.fragments.length []) [] with fault | checked
  · rfl
  · simp only [Except.ok_bind]
    rcases (document.fragmentDefinitions.map Spreads.Part.fragment).foldlM
      (Spreads.answer document.fragments document.fragments.length []) checked with fault | later
    · rfl
    · rfl

/-! ## Measuring depths -/

namespace Depth

variable {table : FragmentTable}

/-- What is done at a selection when depths are measured, with the greatest depth so far. A
fragment that is entered is put on record before its body is gone through. -/
def visit (table : FragmentTable) : Traversal Selection (Nat × Measured) Empty :=
  fun entered (deepest, measured) selection =>
    match selection with
    | .leaf _ => .pass (max deepest 1, measured)
    | .branch _ selections _ =>
        .enter ⟨none, entered, selections, (0, measured),
          fun (depth, measured) => (max deepest (depth + 1), measured)⟩
    | .inline _ selections _ =>
        .enter ⟨none, entered, selections, (0, measured),
          fun (depth, measured) => (max deepest depth, measured)⟩
    | .spread node =>
        match Entries.get? node.name.text table with
        | none => .pass (deepest, measured)
        | some fragment =>
            match Entries.get? fragment.name.text measured with
            | some depth => .pass (max deepest depth, measured)
            | none =>
                .enter {
                  fragment := some fragment.name.text
                  entered := entered
                  items := fragment.selectionSet.selections
                  start := (0, Entries.insert fragment.name.text 0 measured)
                  finish := fun (depth, measured) =>
                    (max deepest depth, Entries.insert fragment.name.text depth measured) }

def seen (_ : List String) (state : Nat × Measured) : List String := Entries.names state.2

def ownNames (table : FragmentTable) : List String :=
  (Entries.values table).map fun fragment => fragment.name.text

theorem mem_ownNames {name : String} {fragment : FragmentDefinition}
    (found : Entries.get? name table = some fragment) : fragment.name.text ∈ ownNames table :=
  List.mem_map.mpr ⟨fragment, List.mem_map.mpr ⟨_, Entries.mem_of_get? found, rfl⟩, rfl⟩

theorem guarded_visit (table : FragmentTable) :
    Guarded (visit table) seen (ownNames table) sizeOf := by
  rintro entered ⟨deepest, measured⟩ selection
  cases selection with
  | leaf head => exact .refl _
  | branch head selections braces =>
      exact .into rfl rfl rfl (fun _ => rfl) (Selection.weight_le_branch _ _ _)
  | inline head selections braces =>
      exact .into rfl rfl rfl (fun _ => rfl) (Selection.weight_le_inline _ _ _)
  | spread node =>
      simp only [visit]
      split
      · exact .refl _
      next fragment found =>
        split
        · exact .refl _
        next unknown =>
          have fresh := Entries.get?_eq_none_iff.mp unknown
          refine ⟨?_, ?_, fun inner kept => ?_, .inl ⟨_, rfl, mem_ownNames found⟩⟩
          · rintro _ ⟨⟩
            exact fresh
          · simp only [seen, Entries.names_insert, if_neg fresh]
            exact List.perm_append_comm
          · have recorded : fragment.name.text ∈ Entries.names inner.2 :=
              kept (Entries.mem_names_insert.mpr (.inl rfl))
            simp only [seen, Entries.names_insert, if_pos recorded]
            exact .refl _

def answer (table : FragmentTable) (levels : Nat) (_ : List String) :
    Nat × Measured → Selection → Except Empty (Nat × Measured)
  | (deepest, measured), selection =>
      let (depth, measured) := ofOne table (ofFragment table (levels + 1)) selection measured
      .ok (max deepest depth, measured)

theorem foldlM_answer (levels : Nat) (entered : List String) (selections : List Selection)
    (deepest : Nat) (measured : Measured) :
    selections.foldlM (answer table levels entered) (deepest, measured) =
      .ok (max deepest (ofAll table (ofFragment table (levels + 1)) selections measured).1,
        (ofAll table (ofFragment table (levels + 1)) selections measured).2) := by
  induction selections generalizing deepest measured with
  | nil => simp [ofAll, pure, Except.pure]
  | cons selection rest induction =>
      simp only [List.foldlM_cons, answer, Except.ok_bind, induction, ofAll, Nat.max_assoc]

theorem answers_visit (table : FragmentTable) :
    Answers (visit table) seen (ownNames table) (answer table) := by
  rintro levels entered ⟨deepest, measured⟩ enough selection
  cases selection with
  | leaf head => rfl
  | branch head selections braces =>
      refine ⟨levels, enough, ?_⟩
      simp only [foldlM_answer, Except.map, Nat.zero_max]
      rfl
  | inline head selections braces =>
      refine ⟨levels, enough, ?_⟩
      simp only [foldlM_answer, Except.map, Nat.zero_max]
      rfl
  | spread node =>
      simp only [visit, answer, ofOne]
      cases found : Entries.get? node.name.text table with
      | none => simp [Yields]
      | some fragment =>
          simp only [ofFragment]
          cases recorded : Entries.get? fragment.name.text measured with
          | some depth => exact rfl
          | none =>
              have fresh := Entries.get?_eq_none_iff.mp recorded
              obtain ⟨below, rfl, enoughBelow⟩ := exists_below (mem_ownNames found) fresh
                (fun _ member => Entries.mem_names_insert.mpr (List.mem_cons.mp member)) enough
              refine ⟨below, enoughBelow, ?_⟩
              simp only [foldlM_answer, Except.map, Nat.zero_max]

theorem endsOnce_depth (table : FragmentTable) (set : SelectionSet) :
    ∃ measured, EndsOnce (visit table) seen set.selections (0, [])
      (.ok (set.depth table, measured)) := by
  have enough : (ownNames table).length ≤ table.length := by simp [ownNames, Entries.values]
  have ends : EndsOnce (visit table) seen set.selections (0, [])
      (set.selections.foldlM (answer table table.length []) (0, [])) :=
    endsOnce (guarded_visit table) (answers_visit table) rfl _ enough
  rw [foldlM_answer, Nat.zero_max] at ends
  exact ⟨_, ends⟩

end Depth

/-! ## Whatever the fragments spread -/

/-- To collect the fields of selection sets, to check the spreads of a document and to measure
the depth of a selection set all come to an end, with the result that is computed. Each enters
the body of every fragment at most once, and what it has in mind in the end are the fragments it
has entered. -/
theorem fragments_are_entered_once :
    (∀ (ρ : Type) (expansion : Expansion ρ) (sets : List SelectionSet), ∃ result,
      EndsOnce expansion.visit Expansion.seen (sets.flatMap SelectionSet.selections) ⟨[], []⟩
        result ∧
      expansion.merge sets = result.map Collected.fields) ∧
    (∀ document : Document, ∃ result,
      EndsOnce (Spreads.visit document.fragments) Spreads.seen document.parts [] result ∧
      document.checkSpreads = result.map fun _ => ()) ∧
    ∀ (table : FragmentTable) (set : SelectionSet), ∃ measured,
      EndsOnce (Depth.visit table) Depth.seen set.selections (0, [])
        (.ok (set.depth table, measured)) :=
  ⟨fun _ expansion sets => ⟨_, expansion.endsOnce_collectSets sets, rfl⟩,
    Document.endsOnce_checkSpreads, Depth.endsOnce_depth⟩

end GraphQuery
