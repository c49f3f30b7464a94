import GraphQuery.Proofs.Selection.SpreadOrder
import GraphQuery.Selection.Depth
import GraphQuery.Selection.Merge

/-! Documents without spreads. Every spread is replaced by an inline fragment that has
the directives and the place of the spread, and the condition and the body of the
fragment that is spread. -/

namespace GraphQuery

/-! ## Putting bodies in the place of spreads -/

def FragmentSpread.inlined (node : FragmentSpread) (fragment : FragmentDefinition) :
    InlineHead where
  typeCondition := some fragment.typeCondition
  directives := node.directives
  span := node.span
  location := node.location

namespace Selection

mutual
/-- Put what `body` makes of a fragment in the place of its spreads. Spreads of unknown
fragments stay. -/
def inlineAll (table : FragmentTable) (body : FragmentDefinition → List Selection) :
    List Selection → List Selection
  | [] => []
  | selection :: rest => inlineOne table body selection :: inlineAll table body rest

def inlineOne (table : FragmentTable) (body : FragmentDefinition → List Selection) :
    Selection → Selection
  | .leaf head => .leaf head
  | .branch head selections braces => .branch head (inlineAll table body selections) braces
  | .inline head selections braces => .inline head (inlineAll table body selections) braces
  | .spread node =>
      match Entries.get? node.name.text table with
      | some fragment =>
          .inline (node.inlined fragment) (body fragment) fragment.selectionSet.span
      | none => .spread node
end

/-- The body of a fragment without spreads. No fragment is spread inside itself, so the
size of the table is enough `levels`. -/
def inlineBody (table : FragmentTable) : (levels : Nat) → FragmentDefinition → List Selection
  | 0, fragment => fragment.selectionSet.selections
  | levels + 1, fragment =>
      inlineAll table (inlineBody table levels) fragment.selectionSet.selections

end Selection

namespace FragmentTable

def inline (table : FragmentTable) (selections : List Selection) : List Selection :=
  Selection.inlineAll table (Selection.inlineBody table table.length) selections

def inlineOne (table : FragmentTable) (selection : Selection) : Selection :=
  Selection.inlineOne table (Selection.inlineBody table table.length) selection

variable (table : FragmentTable)

@[simp] theorem inline_cons (selection : Selection) (rest : List Selection) :
    table.inline (selection :: rest) = table.inlineOne selection :: table.inline rest :=
  rfl

@[simp] theorem inlineOne_leaf (head : FieldHead) :
    table.inlineOne (.leaf head) = .leaf head :=
  rfl

@[simp] theorem inlineOne_branch (head : FieldHead) (selections : List Selection)
    (braces : Span) :
    table.inlineOne (.branch head selections braces) =
      .branch head (table.inline selections) braces :=
  rfl

@[simp] theorem inlineOne_inline (head : InlineHead) (selections : List Selection)
    (braces : Span) :
    table.inlineOne (.inline head selections braces) =
      .inline head (table.inline selections) braces :=
  rfl

end FragmentTable

def SelectionSet.inlined (table : FragmentTable) (set : SelectionSet) : SelectionSet :=
  { set with selections := table.inline set.selections }

def Field.inlined (table : FragmentTable) (field : Field) : Field :=
  { field with selectionSet := field.selectionSet.map (SelectionSet.inlined table) }

def OperationDefinition.inlined (table : FragmentTable) (operation : OperationDefinition) :
    OperationDefinition :=
  { operation with selectionSet := operation.selectionSet.inlined table }

def FragmentDefinition.inlined (table : FragmentTable) (fragment : FragmentDefinition) :
    FragmentDefinition :=
  { fragment with selectionSet := fragment.selectionSet.inlined table }

def Definition.inlined (table : FragmentTable) : Definition → Definition
  | .operation definition => .operation (definition.inlined table)
  | .fragment definition => .fragment (definition.inlined table)

/-- A document in which every spread is replaced by what it stands for. -/
def Document.inlined (document : Document) : Document :=
  { document with definitions := document.definitions.map (Definition.inlined document.fragments) }

/-! ## One level after another -/

namespace Selection

variable {table : FragmentTable} {names : List String}

mutual

theorem inlineOne_congr {body other : FragmentDefinition → List Selection}
    (same : ∀ name ∈ names, ∀ fragment, Entries.get? name table = some fragment →
      body fragment = other fragment) :
    (selection : Selection) → (∀ node ∈ selection.spreads, node.name.text ∈ names) →
    inlineOne table body selection = inlineOne table other selection
  | .leaf head, _ => rfl
  | .branch head selections braces, within => by
      rw [inlineOne, inlineOne, inlineAll_congr same selections within]
  | .inline head selections braces, within => by
      rw [inlineOne, inlineOne, inlineAll_congr same selections within]
  | .spread node, within => by
      rw [inlineOne, inlineOne]
      cases found : Entries.get? node.name.text table with
      | none => rfl
      | some fragment =>
          simp only [same _ (within node (by simp [spreads])) fragment found]

theorem inlineAll_congr {body other : FragmentDefinition → List Selection}
    (same : ∀ name ∈ names, ∀ fragment, Entries.get? name table = some fragment →
      body fragment = other fragment) :
    (selections : List Selection) → SpreadsWithin names selections →
    inlineAll table body selections = inlineAll table other selections
  | [], _ => rfl
  | selection :: rest, within => by
      rcases spreadsWithin_cons.mp within with ⟨here, there⟩
      rw [inlineAll, inlineAll, inlineOne_congr same selection here,
        inlineAll_congr same rest there]

end

mutual

theorem spreads_inlineOne {body : FragmentDefinition → List Selection}
    (known : ∀ name ∈ names, ∃ fragment, Entries.get? name table = some fragment ∧
      spreadsAmong (body fragment) = []) :
    (selection : Selection) → (∀ node ∈ selection.spreads, node.name.text ∈ names) →
    (inlineOne table body selection).spreads = []
  | .leaf head, _ => rfl
  | .branch head selections braces, within => by
      rw [inlineOne, spreads]
      exact spreadsAmong_inlineAll known selections within
  | .inline head selections braces, within => by
      rw [inlineOne, spreads]
      exact spreadsAmong_inlineAll known selections within
  | .spread node, within => by
      rcases known _ (within node (by simp [spreads])) with ⟨fragment, found, bare⟩
      simp only [inlineOne, found, spreads, bare]

theorem spreadsAmong_inlineAll {body : FragmentDefinition → List Selection}
    (known : ∀ name ∈ names, ∃ fragment, Entries.get? name table = some fragment ∧
      spreadsAmong (body fragment) = []) :
    (selections : List Selection) → SpreadsWithin names selections →
    spreadsAmong (inlineAll table body selections) = []
  | [], _ => rfl
  | selection :: rest, within => by
      rcases spreadsWithin_cons.mp within with ⟨here, there⟩
      rw [inlineAll, spreadsAmong, spreads_inlineOne known selection here,
        spreadsAmong_inlineAll known rest there, List.append_nil]

end

end Selection

namespace FragmentTable.Ordered

open Selection

variable {table : FragmentTable} {names : List String}

/-- More levels than there are fragments make no difference. -/
theorem inlineBody_eq (ordered : table.Ordered names) {levels more : Nat}
    (enough : names.length ≤ levels) (also : names.length ≤ more) :
    ∀ name ∈ names, ∀ fragment, Entries.get? name table = some fragment →
      inlineBody table levels fragment = inlineBody table more fragment := by
  induction ordered generalizing levels more with
  | nil => simp
  | @cons first rest fragment found spreads fresh ordered induction =>
      intro name member other otherFound
      rw [List.length_cons] at enough also
      rcases List.mem_cons.mp member with rfl | member
      · rw [found, Option.some.injEq] at otherFound
        subst otherFound
        rcases Nat.exists_eq_add_of_le' (Nat.le_trans (Nat.le_add_left 1 _) enough)
          with ⟨fewer, rfl⟩
        rcases Nat.exists_eq_add_of_le' (Nat.le_trans (Nat.le_add_left 1 _) also)
          with ⟨others, rfl⟩
        rw [inlineBody, inlineBody]
        exact inlineAll_congr
          (induction (Nat.le_of_succ_le_succ enough) (Nat.le_of_succ_le_succ also)) _ spreads
      · exact induction (Nat.le_of_succ_le enough) (Nat.le_of_succ_le also) name member other
          otherFound

theorem spreadsAmong_inlineBody (ordered : table.Ordered names) {levels : Nat}
    (enough : names.length ≤ levels) :
    ∀ name ∈ names, ∃ fragment, Entries.get? name table = some fragment ∧
      spreadsAmong (inlineBody table levels fragment) = [] := by
  induction ordered generalizing levels with
  | nil => simp
  | @cons first rest fragment found spreads fresh ordered induction =>
      intro name member
      rw [List.length_cons] at enough
      rcases List.mem_cons.mp member with rfl | member
      · rcases Nat.exists_eq_add_of_le' (Nat.le_trans (Nat.le_add_left 1 _) enough)
          with ⟨fewer, rfl⟩
        exact ⟨fragment, found,
          spreadsAmong_inlineAll (induction (Nat.le_of_succ_le_succ enough)) _ spreads⟩
      · exact induction (Nat.le_of_succ_le enough) name member

theorem spreadsAmong_inline (ordered : table.Ordered names) {selections : List Selection}
    (within : SpreadsWithin names selections) : spreadsAmong (table.inline selections) = [] :=
  spreadsAmong_inlineAll (ordered.spreadsAmong_inlineBody ordered.length_le) selections within

theorem inlineBody_eq_inline (ordered : table.Ordered names) {name : String}
    (member : name ∈ names) {fragment : FragmentDefinition}
    (found : Entries.get? name table = some fragment) :
    inlineBody table table.length fragment = table.inline fragment.selectionSet.selections := by
  change _ = inlineBody table (table.length + 1) fragment
  exact ordered.inlineBody_eq ordered.length_le (Nat.le_succ_of_le ordered.length_le) name member
    fragment found

theorem inlineOne_spread (ordered : table.Ordered names) {node : FragmentSpread}
    (member : node.name.text ∈ names) {fragment : FragmentDefinition}
    (found : Entries.get? node.name.text table = some fragment) :
    table.inlineOne (.spread node) =
      .inline (node.inlined fragment) (table.inline fragment.selectionSet.selections)
        fragment.selectionSet.span := by
  simp only [FragmentTable.inlineOne, Selection.inlineOne, found,
    ordered.inlineBody_eq_inline member found]

end FragmentTable.Ordered

end GraphQuery
