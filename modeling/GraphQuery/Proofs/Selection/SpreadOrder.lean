import GraphQuery.Proofs.Success
import GraphQuery.Selection.Spreads

/-! Fragments in order. The names that a check of spreads has gone through are in
an order in which each fragment comes before those that it spreads, so nothing
spreads itself. -/

namespace GraphQuery

/-! ## Spreads -/

namespace Selection

mutual
def spreads : Selection → List FragmentSpread
  | .leaf _ => []
  | .branch _ selections _ => spreadsAmong selections
  | .inline _ selections _ => spreadsAmong selections
  | .spread node => [node]

def spreadsAmong : List Selection → List FragmentSpread
  | [] => []
  | selection :: rest => spreads selection ++ spreadsAmong rest
end

def SpreadsWithin (names : List String) (selections : List Selection) : Prop :=
  ∀ node ∈ spreadsAmong selections, node.name.text ∈ names

theorem SpreadsWithin.mono {names more : List String} {selections : List Selection}
    (within : SpreadsWithin names selections) (subset : names ⊆ more) :
    SpreadsWithin more selections :=
  fun node member => subset (within node member)

theorem spreadsWithin_cons {names : List String} {selection : Selection}
    {rest : List Selection} :
    SpreadsWithin names (selection :: rest) ↔
      (∀ node ∈ selection.spreads, node.name.text ∈ names) ∧ SpreadsWithin names rest := by
  simp only [SpreadsWithin, spreadsAmong, List.mem_append]
  constructor
  · intro within
    exact ⟨fun node member => within node (.inl member),
      fun node member => within node (.inr member)⟩
  · rintro ⟨here, there⟩ node (member | member)
    · exact here node member
    · exact there node member

end Selection

/-! ## Tables -/

namespace FragmentTable

/-- Every fragment stands under its own name, and no name stands twice. -/
structure Keyed (table : FragmentTable) : Prop where
  name_eq : ∀ {name fragment}, Entries.get? name table = some fragment →
    fragment.name.text = name
  nodup : (Entries.names table).Nodup

theorem Keyed.insert {table : FragmentTable} (keyed : Keyed table)
    {fragment : FragmentDefinition} (fresh : fragment.name.text ∉ Entries.names table) :
    Keyed (Entries.insert fragment.name.text fragment table) where
  name_eq := by
    intro name other found
    by_cases same : fragment.name.text = name
    · subst same
      rw [Entries.get?_insert_self] at found
      cases found
      rfl
    · rw [Entries.get?_insert_of_ne same] at found
      exact keyed.name_eq found
  nodup := by
    rw [Entries.names_insert, if_neg fresh]
    exact List.nodup_append.mpr ⟨keyed.nodup, by simp, by
      intro name member other single equal
      rw [List.mem_singleton] at single
      exact fresh (single ▸ equal ▸ member)⟩

theorem keyed_ofDefinitions (definitions : List FragmentDefinition) :
    Keyed (ofDefinitions definitions) := by
  have extend : ∀ table : FragmentTable, Keyed table → Keyed (definitions.foldl
      (fun table definition =>
        if Entries.contains definition.name.text table then table
        else Entries.insert definition.name.text definition table) table) := by
    induction definitions with
    | nil => exact fun table keyed => keyed
    | cons definition rest induction =>
        intro table keyed
        rw [List.foldl_cons]
        split
        · exact induction table keyed
        · rename_i absent
          exact induction _ (keyed.insert fun member => absent (Entries.contains_iff.mpr member))
  exact extend [] ⟨by simp [Entries.get?], by simp [Entries.names]⟩

theorem get?_ofDefinitions (definitions : List FragmentDefinition) (name : String) :
    Entries.get? name (ofDefinitions definitions) =
      definitions.find? fun definition => definition.name.text == name := by
  have extend : ∀ table : FragmentTable, Entries.get? name (definitions.foldl
      (fun table definition =>
        if Entries.contains definition.name.text table then table
        else Entries.insert definition.name.text definition table) table) =
      (Entries.get? name table).or
        (definitions.find? fun definition => definition.name.text == name) := by
    induction definitions with
    | nil => simp
    | cons definition rest induction =>
        intro table
        rw [List.foldl_cons, induction, List.find?_cons]
        by_cases same : definition.name.text = name
        · subst same
          by_cases known : Entries.contains definition.name.text table
          · cases found : Entries.get? definition.name.text table with
            | none =>
                exact absurd (Entries.contains_iff.mp known) (Entries.get?_eq_none_iff.mp found)
            | some earlier => simp [known, found]
          · have fresh : Entries.get? definition.name.text table = none :=
              Entries.get?_eq_none_iff.mpr fun member =>
                known (Entries.contains_iff.mpr member)
            simp [known, fresh, Entries.get?_insert_self]
        · have other : (definition.name.text == name) = false := beq_eq_false_iff_ne.mpr same
          rw [other]
          split
          · rfl
          · rw [Entries.get?_insert_of_ne same]
  exact extend []

/-- Names in an order in which each fragment comes before those that it spreads. -/
inductive Ordered (table : FragmentTable) : List String → Prop where
  | nil : Ordered table []
  | cons {name : String} {names : List String} {fragment : FragmentDefinition}
      (found : Entries.get? name table = some fragment)
      (spreads : Selection.SpreadsWithin names fragment.selectionSet.selections)
      (fresh : name ∉ names) (ordered : Ordered table names) : Ordered table (name :: names)

namespace Ordered

variable {table : FragmentTable} {names : List String}

theorem nodup (ordered : Ordered table names) : names.Nodup := by
  induction ordered with
  | nil => exact .nil
  | cons _ _ fresh _ induction => exact List.nodup_cons.mpr ⟨fresh, induction⟩

theorem subset (ordered : Ordered table names) : names ⊆ Entries.names table := by
  induction ordered with
  | nil => exact List.nil_subset _
  | cons found _ _ _ induction =>
      exact List.cons_subset.mpr ⟨Entries.mem_names_of_get? found, induction⟩

theorem length_le (ordered : Ordered table names) : names.length ≤ table.length := by
  rw [← Entries.length_names]
  exact List.Nodup.length_le_of_subset ordered.nodup ordered.subset

theorem exists_of_mem (ordered : Ordered table names) {name : String} (member : name ∈ names) :
    ∃ fragment, Entries.get? name table = some fragment ∧
      Selection.SpreadsWithin names fragment.selectionSet.selections := by
  induction ordered with
  | nil => cases member
  | cons found spreads _ _ induction =>
      rcases List.mem_cons.mp member with rfl | member
      · exact ⟨_, found, spreads.mono (List.subset_cons_self _ _)⟩
      · rcases induction member with ⟨fragment, found, spreads⟩
        exact ⟨fragment, found, spreads.mono (List.subset_cons_self _ _)⟩

end Ordered

end FragmentTable

/-! ## Going through selections -/

namespace Spreads

open FragmentTable

variable {table : FragmentTable}

/-- What has become of the checked names when selections inside the fragments
`entered` have been gone through. -/
structure Progress (table : FragmentTable) (entered : List String) (checked later : Checked) :
    Prop where
  ordered : Ordered table later
  subset : checked ⊆ later
  outside : ∀ name ∈ entered, name ∉ later

theorem Progress.trans {entered : List String} {first second third : Checked}
    (earlier : Progress table entered first second)
    (later : Progress table entered second third) : Progress table entered first third :=
  ⟨later.ordered, fun _ member => later.subset (earlier.subset member), later.outside⟩

def SoundBody (table : FragmentTable) (entered : List String)
    (body : FragmentDefinition → Checked → Except SelectionFault Checked) : Prop :=
  ∀ fragment checked later, body fragment checked = .ok later →
    Entries.get? fragment.name.text table = some fragment →
    fragment.name.text ∉ entered → Progress table entered checked checked →
    fragment.name.text ∉ checked →
    Progress table (fragment.name.text :: entered) checked later ∧
      Selection.SpreadsWithin later fragment.selectionSet.selections

variable {entered : List String}
  {body : FragmentDefinition → Checked → Except SelectionFault Checked}

theorem progress_spread (keyed : Keyed table) (sound : SoundBody table entered body)
    {node : FragmentSpread} {checked later : Checked}
    (done : checkOne table entered body (.spread node) checked = .ok later)
    (start : Progress table entered checked checked) :
    Progress table entered checked later ∧ node.name.text ∈ later := by
  simp only [checkOne] at done
  split at done
  · cases done
  · rename_i fragment found
    have name := keyed.name_eq found
    split at done
    · cases done
    · rename_i notEntered
      split at done
      · rename_i known
        cases done
        exact ⟨start, by simpa using known⟩
      · rename_i unknown
        rcases Except.exists_of_bind done with ⟨between, bodyDone, done⟩
        cases done
        rw [← name] at found notEntered unknown ⊢
        simp only [List.contains_iff_mem] at notEntered unknown
        rcases sound _ _ _ bodyDone found notEntered start unknown with ⟨progress, spreads⟩
        have fresh := progress.outside fragment.name.text (by simp)
        refine ⟨⟨.cons found spreads fresh progress.ordered,
          fun other member => List.mem_cons_of_mem _ (progress.subset member), ?_⟩, by simp⟩
        intro other member inside
        rcases List.mem_cons.mp inside with rfl | inside
        · exact notEntered member
        · exact progress.outside other (by simp [member]) inside

mutual

theorem progress_checkOne (keyed : Keyed table) (sound : SoundBody table entered body) :
    (selection : Selection) → {checked later : Checked} →
    checkOne table entered body selection checked = .ok later →
    Progress table entered checked checked →
    Progress table entered checked later ∧
      ∀ node ∈ selection.spreads, node.name.text ∈ later
  | .leaf head, checked, later, done, start => by
      cases done
      exact ⟨start, by simp [Selection.spreads]⟩
  | .branch head selections braces, checked, later, done, start =>
      progress_checkAll keyed sound selections done start
  | .inline head selections braces, checked, later, done, start =>
      progress_checkAll keyed sound selections done start
  | .spread node, checked, later, done, start => by
      have progress := progress_spread keyed sound done start
      exact ⟨progress.1, by simpa [Selection.spreads] using progress.2⟩

theorem progress_checkAll (keyed : Keyed table) (sound : SoundBody table entered body) :
    (selections : List Selection) → {checked later : Checked} →
    checkAll table entered body selections checked = .ok later →
    Progress table entered checked checked →
    Progress table entered checked later ∧ Selection.SpreadsWithin later selections
  | [], checked, later, done, start => by
      cases done
      exact ⟨start, by simp [Selection.SpreadsWithin, Selection.spreadsAmong]⟩
  | selection :: rest, checked, later, done, start => by
      rcases Except.exists_of_bind done with ⟨between, first, done⟩
      rcases progress_checkOne keyed sound selection first start with ⟨here, spreads⟩
      rcases progress_checkAll keyed sound rest done
        ⟨here.ordered, List.Subset.refl _, here.outside⟩ with ⟨there, others⟩
      exact ⟨here.trans there, Selection.spreadsWithin_cons.mpr
        ⟨fun node member => there.subset (spreads node member), others⟩⟩

end

/-- The fragments entered all have different names, so there is a level left for
every fragment that has not been entered. -/
theorem sound_checkBody (keyed : Keyed table) (levels : Nat) {entered : List String}
    (distinct : entered.Nodup) (known : entered ⊆ Entries.names table)
    (enough : table.length ≤ levels + entered.length) :
    SoundBody table entered (checkBody table levels entered) := by
  induction levels generalizing entered with
  | zero =>
      intro fragment checked later _ found notEntered _ _
      have member := Entries.mem_names_of_get? found
      have bound := List.Nodup.length_le_of_subset
        (List.nodup_cons.mpr ⟨notEntered, distinct⟩) (List.cons_subset.mpr ⟨member, known⟩)
      rw [Entries.length_names, List.length_cons] at bound
      omega
  | succ levels induction =>
      intro fragment checked later done found notEntered start unknown
      have sound := induction (List.nodup_cons.mpr ⟨notEntered, distinct⟩)
        (List.cons_subset.mpr ⟨Entries.mem_names_of_get? found, known⟩)
        (by rw [List.length_cons]; omega)
      refine progress_checkAll keyed sound _ done ⟨start.ordered, start.subset, ?_⟩
      intro name member
      rcases List.mem_cons.mp member with rfl | member
      · exact unknown
      · exact start.outside name member

theorem progress_checkOperations (keyed : Keyed table) {operations : List OperationDefinition}
    {checked later : Checked} (done : checkOperations table operations checked = .ok later)
    (ordered : Ordered table checked) :
    Ordered table later ∧ checked ⊆ later ∧ ∀ operation ∈ operations,
      Selection.SpreadsWithin later operation.selectionSet.selections := by
  induction operations generalizing checked with
  | nil =>
      cases done
      exact ⟨ordered, List.Subset.refl _, by simp⟩
  | cons operation rest induction =>
      rcases Except.exists_of_bind done with ⟨between, first, done⟩
      have sound : SoundBody table [] (checkBody table table.length []) :=
        sound_checkBody keyed table.length .nil (List.nil_subset _) (by simp)
      rcases progress_checkAll keyed sound _ first
        ⟨ordered, List.Subset.refl _, by simp⟩ with ⟨here, spreads⟩
      rcases induction done here.ordered with ⟨last, subset, others⟩
      refine ⟨last, fun _ member => subset (here.subset member), ?_⟩
      intro other member
      rcases List.mem_cons.mp member with rfl | member
      · exact spreads.mono subset
      · exact others other member

def StandFirst (table : FragmentTable) (fragments : List FragmentDefinition) (checked : Checked) :
    Prop :=
  ∀ {name fragment}, name ∉ checked →
    (fragments.find? fun fragment => fragment.name.text == name) = some fragment →
      Entries.get? name table = some fragment

theorem StandFirst.rest {fragment : FragmentDefinition} {rest : List FragmentDefinition}
    {checked more : Checked} (firsts : StandFirst table (fragment :: rest) checked)
    (subset : checked ⊆ more) (known : fragment.name.text ∈ more) : StandFirst table rest more := by
  intro name found fresh last
  have different : fragment.name.text ≠ name := fun same => fresh (same ▸ known)
  refine firsts (fun member => fresh (subset member)) ?_
  rw [List.find?_cons_of_neg (by simpa using different), last]

theorem progress_first (keyed : Keyed table) {fragment : FragmentDefinition}
    {rest : List FragmentDefinition} {checked between : Checked}
    (firsts : StandFirst table (fragment :: rest) checked)
    (unknown : fragment.name.text ∉ checked)
    (body : checkBody table (table.length + 1) [] fragment checked = .ok between)
    (ordered : Ordered table checked) :
    Ordered table (fragment.name.text :: between) ∧ checked ⊆ fragment.name.text :: between := by
  have found : Entries.get? fragment.name.text table = some fragment := firsts unknown (by simp)
  have sound : SoundBody table [] (checkBody table (table.length + 1) []) :=
    sound_checkBody keyed _ .nil (List.nil_subset _) (by simp)
  rcases sound _ _ _ body found (by simp) ⟨ordered, List.Subset.refl _, by simp⟩ unknown
    with ⟨progress, spreads⟩
  exact ⟨.cons found spreads (progress.outside _ (by simp)) progress.ordered,
    fun name member => List.mem_cons_of_mem _ (progress.subset member)⟩

theorem progress_checkFragments (keyed : Keyed table) {fragments : List FragmentDefinition}
    {checked later : Checked} (done : checkFragments table fragments checked = .ok later)
    (firsts : StandFirst table fragments checked) (ordered : Ordered table checked) :
    Ordered table later ∧ checked ⊆ later ∧
      ∀ fragment ∈ fragments, fragment.name.text ∈ later := by
  induction fragments generalizing checked with
  | nil =>
      cases done
      exact ⟨ordered, List.Subset.refl _, by simp⟩
  | cons fragment rest induction =>
      simp only [checkFragments, List.contains_iff_mem] at done
      split at done
      · rename_i known
        rcases induction done (firsts.rest (List.Subset.refl _) known) ordered
          with ⟨last, subset, all⟩
        exact ⟨last, subset, List.forall_mem_cons.mpr ⟨subset known, all⟩⟩
      · rename_i unknown
        rcases Except.exists_of_bind done with ⟨between, body, done⟩
        rcases progress_first keyed firsts unknown body ordered with ⟨extended, inside⟩
        rcases induction done (firsts.rest inside List.mem_cons_self) extended
          with ⟨last, subset, all⟩
        exact ⟨last, fun name member => subset (inside member),
          List.forall_mem_cons.mpr ⟨subset List.mem_cons_self, all⟩⟩

end Spreads

/-- An order of all the fragments that a document's spreads can lead to. -/
structure Document.Order (document : Document) (names : List String) : Prop where
  ordered : document.fragments.Ordered names
  complete : ∀ {name fragment}, Entries.get? name document.fragments = some fragment →
    name ∈ names
  operations : ∀ operation ∈ document.operations,
    Selection.SpreadsWithin names operation.selectionSet.selections

theorem Document.exists_order_of_checkSpreads {document : Document}
    (passed : document.checkSpreads = .ok ()) : ∃ names, document.Order names := by
  rcases Except.exists_of_bind passed with ⟨checked, first, passed⟩
  rcases Except.exists_of_bind passed with ⟨later, second, _⟩
  have keyed := FragmentTable.keyed_ofDefinitions document.fragmentDefinitions
  rcases Spreads.progress_checkOperations keyed first .nil with ⟨ordered, _, within⟩
  rcases Spreads.progress_checkFragments keyed second
    (fun _ found => (FragmentTable.get?_ofDefinitions _ _).trans found) ordered
    with ⟨last, subset, all⟩
  refine ⟨later, last, ?_, fun operation member => (within operation member).mono subset⟩
  intro name fragment found
  have named := keyed.name_eq found
  rw [Document.fragments, FragmentTable.get?_ofDefinitions] at found
  exact named ▸ all fragment (List.mem_of_find?_eq_some found)

end GraphQuery
