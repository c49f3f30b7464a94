import GraphQuery.Proofs.Selection.SpreadFaults
import GraphQuery.Selection.Depth
import Mathlib.Order.Bounds.Basic

/-! The measured depth is the length of the longest path of fields. While a fragment is measured
its depth is put down as zero, but where no fragment leads to itself this is never looked at, and
what is on record otherwise holds wherever the fragment is spread. -/

namespace GraphQuery

/-! ## Paths -/

namespace Selection

/-- Fields inside one another, from the outside in. Every spread on the way is expanded anew; one
of an unknown fragment leads nowhere. -/
inductive Descends (table : FragmentTable) : List Selection → List FieldHead → Prop where
  | stop {selections : List Selection} : Descends table selections []
  | leaf {selections : List Selection} {head : FieldHead} (member : .leaf head ∈ selections) :
      Descends table selections [head]
  | branch {selections : List Selection} {head : FieldHead} {below : List Selection}
      {braces : Span} {path : List FieldHead} (member : .branch head below braces ∈ selections)
      (inside : Descends table below path) : Descends table selections (head :: path)
  | inline {selections : List Selection} {head : InlineHead} {body : List Selection}
      {braces : Span} {path : List FieldHead} (member : .inline head body braces ∈ selections)
      (inside : Descends table body path) : Descends table selections path
  | spread {selections : List Selection} {node : FragmentSpread} {fragment : FragmentDefinition}
      {path : List FieldHead} (member : .spread node ∈ selections)
      (found : Entries.get? node.name.text table = some fragment)
      (inside : Descends table fragment.selectionSet.selections path) :
      Descends table selections path

def IsDepth (table : FragmentTable) (selections : List Selection) (depth : Nat) : Prop :=
  IsGreatest {length | ∃ path, Descends table selections path ∧ path.length = length} depth

variable {table : FragmentTable} {selections rest : List Selection}

def Leads (table : FragmentTable) (path : List FieldHead) : Selection → Prop
  | .leaf head => path = [head]
  | .branch head below _ => ∃ further, path = head :: further ∧ Descends table below further
  | .inline _ body _ => Descends table body path
  | .spread node => ∃ fragment, Entries.get? node.name.text table = some fragment ∧
      Descends table fragment.selectionSet.selections path

theorem descends_iff {path : List FieldHead} : Descends table selections path ↔
    path = [] ∨ ∃ selection ∈ selections, Leads table path selection := by
  constructor
  · intro descends
    cases descends with
    | stop => exact .inl rfl
    | leaf member => exact .inr ⟨_, member, rfl⟩
    | branch member inside => exact .inr ⟨_, member, _, rfl, inside⟩
    | inline member inside => exact .inr ⟨_, member, inside⟩
    | spread member found inside => exact .inr ⟨_, member, _, found, inside⟩
  · rintro (rfl | ⟨selection, member, leads⟩)
    · exact .stop
    · cases selection with
      | leaf head =>
          cases leads
          exact .leaf member
      | branch head below braces =>
          obtain ⟨further, rfl, inside⟩ := leads
          exact .branch member inside
      | inline head body braces => exact .inline member leads
      | spread node =>
          obtain ⟨fragment, found, inside⟩ := leads
          exact .spread member found inside

theorem descends_singleton {selection : Selection} {path : List FieldHead} :
    Descends table [selection] path ↔ path = [] ∨ Leads table path selection := by
  simp [descends_iff]

theorem descends_cons {selection : Selection} {path : List FieldHead} :
    Descends table (selection :: rest) path ↔
      Descends table [selection] path ∨ Descends table rest path := by
  simp only [descends_iff, List.exists_mem_cons_iff, List.not_mem_nil, false_and, exists_false,
    or_false]
  tauto

namespace IsDepth

theorem nil : IsDepth table [] 0 := by
  refine ⟨⟨[], .stop, rfl⟩, ?_⟩
  rintro _ ⟨path, descends, rfl⟩
  rcases descends_iff.mp descends with rfl | ⟨_, member, _⟩
  · exact Nat.le_refl 0
  · cases member

theorem cons {selection : Selection} {first second : Nat}
    (here : IsDepth table [selection] first) (there : IsDepth table rest second) :
    IsDepth table (selection :: rest) (max first second) := by
  have lengths : {length | ∃ path, Descends table (selection :: rest) path ∧
      path.length = length} =
        {length | ∃ path, Descends table [selection] path ∧ path.length = length} ∪
          {length | ∃ path, Descends table rest path ∧ path.length = length} := by
    ext length
    constructor
    · rintro ⟨path, descends, same⟩
      exact (descends_cons.mp descends).imp (⟨path, ·, same⟩) (⟨path, ·, same⟩)
    · rintro (⟨path, descends, same⟩ | ⟨path, descends, same⟩)
      · exact ⟨path, descends_cons.mpr (.inl descends), same⟩
      · exact ⟨path, descends_cons.mpr (.inr descends), same⟩
  rw [IsDepth, lengths]
  exact here.union there

theorem leaf (head : FieldHead) : IsDepth table [.leaf head] 1 := by
  refine ⟨⟨[head], .leaf (List.mem_singleton_self _), rfl⟩, ?_⟩
  rintro _ ⟨path, descends, rfl⟩
  rcases descends_singleton.mp descends with rfl | rfl
  · exact Nat.zero_le 1
  · exact Nat.le_refl 1

theorem branch {head : FieldHead} {below : List Selection} {braces : Span} {depth : Nat}
    (inside : IsDepth table below depth) :
    IsDepth table [.branch head below braces] (depth + 1) := by
  obtain ⟨⟨path, descends, rfl⟩, bound⟩ := inside
  refine ⟨⟨head :: path, .branch (List.mem_singleton_self _) descends, rfl⟩, ?_⟩
  rintro _ ⟨other, descends, rfl⟩
  rcases descends_singleton.mp descends with rfl | ⟨further, rfl, within⟩
  · exact Nat.zero_le _
  · exact Nat.succ_le_succ (bound ⟨further, within, rfl⟩)

theorem of_body {selection : Selection} {body : List Selection} {depth : Nat}
    (inside : IsDepth table body depth)
    (leads : ∀ path, Leads table path selection ↔ Descends table body path) :
    IsDepth table [selection] depth := by
  obtain ⟨⟨path, descends, rfl⟩, bound⟩ := inside
  refine ⟨⟨path, descends_singleton.mpr (.inr ((leads path).mpr descends)), rfl⟩, ?_⟩
  rintro _ ⟨other, descends, rfl⟩
  rcases descends_singleton.mp descends with rfl | further
  · exact Nat.zero_le _
  · exact bound ⟨other, (leads other).mp further, rfl⟩

theorem inline {head : InlineHead} {body : List Selection} {braces : Span} {depth : Nat}
    (inside : IsDepth table body depth) : IsDepth table [.inline head body braces] depth :=
  inside.of_body fun _ => .rfl

theorem spread {node : FragmentSpread} {fragment : FragmentDefinition} {depth : Nat}
    (found : Entries.get? node.name.text table = some fragment)
    (inside : IsDepth table fragment.selectionSet.selections depth) :
    IsDepth table [.spread node] depth :=
  inside.of_body fun _ => by simp [Leads, found]

theorem unknown {node : FragmentSpread} (undefined : Entries.get? node.name.text table = none) :
    IsDepth table [.spread node] 0 := by
  refine ⟨⟨[], .stop, rfl⟩, ?_⟩
  rintro _ ⟨path, descends, rfl⟩
  rcases descends_singleton.mp descends with rfl | ⟨fragment, found, _⟩
  · exact Nat.le_refl 0
  · cases undefined.symm.trans found

end IsDepth

end Selection

/-! ## Measuring -/

namespace Spreads.Trail

variable {table : FragmentTable} {entered : List String} {name : String}

theorem enter (trail : Trail table entered) {node : FragmentSpread}
    (spread : ∀ outer ∈ entered.head?, table.SpreadsTo outer node.name.text) :
    Trail table (node.name.text :: entered) := by
  cases entered with
  | nil => exact .singleton _
  | cons outer rest => exact List.isChain_cons_cons.mpr ⟨spread outer rfl, trail⟩

theorem subset_names (trail : Trail table (name :: entered)) : entered ⊆ Entries.names table := by
  induction entered generalizing name with
  | nil => exact List.nil_subset _
  | cons outer rest induction =>
      obtain ⟨⟨_, found, _⟩, trail⟩ := List.isChain_cons_cons.mp trail
      exact List.cons_subset.mpr ⟨Entries.mem_names_of_get? found, induction trail⟩

section Acyclic

variable (acyclic : ∀ name, ¬ Relation.TransGen table.SpreadsTo name name)
include acyclic

theorem not_mem (trail : Trail table (name :: entered)) : name ∉ entered := by
  cases entered with
  | nil => exact List.not_mem_nil
  | cons outer rest =>
      obtain ⟨spreads, trail⟩ := List.isChain_cons_cons.mp trail
      exact fun member => acyclic name (.tail' (Trail.leadsTo trail member) spreads)

theorem nodup (trail : Trail table entered) : entered.Nodup := by
  induction entered with
  | nil => exact .nil
  | cons name rest induction =>
      exact List.nodup_cons.mpr
        ⟨not_mem acyclic trail, induction (List.isChain_of_isChain_cons trail)⟩

/-- There are more fragments than have been entered before a known one. -/
theorem length_lt (trail : Trail table (name :: entered))
    (known : name ∈ Entries.names table) : entered.length < table.length := by
  have bound := List.Nodup.length_le_of_subset (nodup acyclic trail)
    (List.cons_subset.mpr ⟨known, trail.subset_names⟩)
  rwa [List.length_cons, Entries.length_names] at bound

end Acyclic

end Spreads.Trail

namespace Depth

open Selection Spreads

variable {table : FragmentTable} {entered : List String}
  {ofFragment : FragmentDefinition → Measured → Nat × Measured}

/-- The depths on record are right, but for the fragments that are being measured. -/
def Holds (table : FragmentTable) (entered : List String) (measured : Measured) : Prop :=
  ∀ {name depth}, Entries.get? name measured = some depth → name ∉ entered →
    ∀ fragment, Entries.get? name table = some fragment →
      IsDepth table fragment.selectionSet.selections depth

/-- A measurement of selections that is right, and leaves a record that holds. -/
structure Finds (table : FragmentTable) (entered : List String) (selections : List Selection)
    (result : Nat × Measured) : Prop where
  depth : IsDepth table selections result.1
  record : Holds table entered result.2

def FindsBody (table : FragmentTable) (entered : List String)
    (ofFragment : FragmentDefinition → Measured → Nat × Measured) : Prop :=
  ∀ name fragment measured, Entries.get? name table = some fragment →
    Trail table (name :: entered) → Holds table entered measured →
      Finds table entered fragment.selectionSet.selections (ofFragment fragment measured)

mutual

theorem finds_ofOne (trail : Trail table entered) (reliable : FindsBody table entered ofFragment) :
    (selection : Selection) → (measured : Measured) → Holds table entered measured →
    (∀ node ∈ selection.spreads, ∀ outer ∈ entered.head?, table.SpreadsTo outer node.name.text) →
    Finds table entered [selection] (ofOne table ofFragment selection measured)
  | .leaf head, _, holds, _ => ⟨.leaf head, holds⟩
  | .branch head selections braces, measured, holds, inside =>
      have below := finds_ofAll trail reliable selections measured holds inside
      ⟨below.depth.branch, below.record⟩
  | .inline head selections braces, measured, holds, inside =>
      have body := finds_ofAll trail reliable selections measured holds inside
      ⟨body.depth.inline, body.record⟩
  | .spread node, measured, holds, inside => by
      have next := trail.enter (inside node (List.mem_singleton_self node))
      simp only [ofOne]
      split
      next fragment found =>
        have body := reliable _ fragment measured found next holds
        exact ⟨body.depth.spread found, body.record⟩
      next undefined => exact ⟨.unknown undefined, holds⟩

theorem finds_ofAll (trail : Trail table entered) (reliable : FindsBody table entered ofFragment) :
    (selections : List Selection) → (measured : Measured) → Holds table entered measured →
    (∀ node ∈ spreadsAmong selections, ∀ outer ∈ entered.head?,
      table.SpreadsTo outer node.name.text) →
    Finds table entered selections (ofAll table ofFragment selections measured)
  | [], _, holds, _ => ⟨.nil, holds⟩
  | selection :: rest, measured, holds, inside =>
      have first := finds_ofOne trail reliable selection measured holds
        fun node member => inside node (List.mem_append_left _ member)
      have others := finds_ofAll trail reliable rest _ first.record
        fun node member => inside node (List.mem_append_right _ member)
      ⟨first.depth.cons others.depth, others.record⟩

end

/-- The zero on record for a fragment that is being measured is never looked at: it could be
found only by a spread of a fragment that has been entered, and these lead to what is spread. -/
theorem findsBody_ofFragment (keyed : table.Keyed)
    (acyclic : ∀ name, ¬ Relation.TransGen table.SpreadsTo name name) {levels : Nat}
    (enough : table.length ≤ levels + entered.length) :
    FindsBody table entered (Depth.ofFragment table levels) := by
  induction levels generalizing entered with
  | zero =>
      intro name fragment _ found trail
      have bound := Trail.length_lt acyclic trail (Entries.mem_names_of_get? found)
      omega
  | succ levels induction =>
      intro name fragment measured found trail holds
      simp only [Depth.ofFragment, keyed.name_eq found]
      cases known : Entries.get? name measured with
      | some depth =>
          exact ⟨holds known (Trail.not_mem acyclic trail) fragment found, holds⟩
      | none =>
          have inside : Holds table (name :: entered) (Entries.insert name 0 measured) := by
            intro other depth onRecord outside
            rw [List.mem_cons, not_or] at outside
            rw [Entries.get?_insert_of_ne (Ne.symm outside.1)] at onRecord
            exact holds onRecord outside.2
          have body := finds_ofAll trail
            (induction (by rw [List.length_cons]; omega)) _ _ inside
            (by rintro node member _ ⟨⟩; exact ⟨fragment, found, node, member, rfl⟩)
          refine ⟨body.depth, fun {other depth} onRecord outside => ?_⟩
          by_cases same : name = other
          · subst same
            rw [Entries.get?_insert_self, Option.some.injEq] at onRecord
            intro again foundAgain
            cases found.symm.trans foundAgain
            exact onRecord ▸ body.depth
          · rw [Entries.get?_insert_of_ne same] at onRecord
            exact body.record onRecord (by simp [Ne.symm same, outside])

end Depth

theorem SelectionSet.isDepth_depth {table : FragmentTable} (keyed : table.Keyed)
    (acyclic : ∀ name, ¬ Relation.TransGen table.SpreadsTo name name) (set : SelectionSet) :
    Selection.IsDepth table set.selections (set.depth table) :=
  (Depth.finds_ofAll .nil
    (Depth.findsBody_ofFragment keyed acyclic (Nat.le_succ_of_le (Nat.le_refl _)))
    set.selections [] (fun onRecord => by cases onRecord) (by simp)).depth

/-! ## Other orders -/

namespace Selection

inductive Reordered : List Selection → List Selection → Prop where
  | nil : Reordered [] []
  | keep (selection : Selection) {rest others : List Selection} (tail : Reordered rest others) :
      Reordered (selection :: rest) (selection :: others)
  | branch (head : FieldHead) {below moved : List Selection} (braces : Span)
      {rest others : List Selection} (inside : Reordered below moved)
      (tail : Reordered rest others) :
      Reordered (.branch head below braces :: rest) (.branch head moved braces :: others)
  | inline (head : InlineHead) {body moved : List Selection} (braces : Span)
      {rest others : List Selection} (inside : Reordered body moved)
      (tail : Reordered rest others) :
      Reordered (.inline head body braces :: rest) (.inline head moved braces :: others)
  | swap (first second : Selection) (rest : List Selection) :
      Reordered (first :: second :: rest) (second :: first :: rest)
  | trans {first second third : List Selection} (before : Reordered first second)
      (after : Reordered second third) : Reordered first third

namespace Reordered

variable {selections others : List Selection}

theorem refl (selections : List Selection) : Reordered selections selections := by
  induction selections with
  | nil => exact .nil
  | cons selection rest induction => exact .keep selection induction

theorem symm (reordered : Reordered selections others) : Reordered others selections := by
  induction reordered with
  | nil => exact .nil
  | keep selection _ induction => exact .keep selection induction
  | branch head braces _ _ inside tail => exact .branch head braces inside tail
  | inline head braces _ _ inside tail => exact .inline head braces inside tail
  | swap first second rest => exact .swap second first rest
  | trans _ _ before after => exact .trans after before

theorem mem_spreadsAmong (reordered : Reordered selections others) {node : FragmentSpread} :
    node ∈ spreadsAmong selections ↔ node ∈ spreadsAmong others := by
  induction reordered with
  | nil => rfl
  | keep selection _ induction => simp only [spreadsAmong, List.mem_append, induction]
  | branch head braces _ _ inside tail =>
      simp only [spreadsAmong, spreads, List.mem_append, inside, tail]
  | inline head braces _ _ inside tail =>
      simp only [spreadsAmong, spreads, List.mem_append, inside, tail]
  | swap first second rest => simp only [spreadsAmong, List.mem_append, or_left_comm]
  | trans _ _ before after => exact before.trans after

end Reordered

end Selection

def FragmentTable.Reordered (table other : FragmentTable) : Prop :=
  ∀ name, Option.Rel
    (fun fragment moved : FragmentDefinition =>
      Selection.Reordered fragment.selectionSet.selections moved.selectionSet.selections)
    (Entries.get? name table) (Entries.get? name other)

namespace FragmentTable.Reordered

variable {table other : FragmentTable}

theorem exists_of_get? (reordered : table.Reordered other) {name : String}
    {fragment : FragmentDefinition} (found : Entries.get? name table = some fragment) :
    ∃ moved, Entries.get? name other = some moved ∧
      Selection.Reordered fragment.selectionSet.selections moved.selectionSet.selections := by
  have related := reordered name
  rw [found] at related
  generalize Entries.get? name other = result at related
  cases related with
  | some inside => exact ⟨_, rfl, inside⟩

theorem symm (reordered : table.Reordered other) : FragmentTable.Reordered other table := by
  intro name
  have related := reordered name
  generalize Entries.get? name table = first, Entries.get? name other = second at related
  cases related with
  | none => exact .none
  | some inside => exact .some inside.symm

theorem spreadsTo (reordered : table.Reordered other) {outer name : String}
    (spreads : table.SpreadsTo outer name) : FragmentTable.SpreadsTo other outer name := by
  obtain ⟨fragment, found, node, inside, named⟩ := spreads
  obtain ⟨moved, foundMoved, same⟩ := reordered.exists_of_get? found
  exact ⟨moved, foundMoved, node, same.mem_spreadsAmong.mp inside, named⟩

theorem acyclic (reordered : table.Reordered other)
    (acyclic : ∀ name, ¬ Relation.TransGen table.SpreadsTo name name) (name : String) :
    ¬ Relation.TransGen (FragmentTable.SpreadsTo other) name name :=
  fun cycle =>
    acyclic name (Relation.TransGen.mono (fun _ _ => reordered.symm.spreadsTo) _ _ cycle)

end FragmentTable.Reordered

namespace Selection

variable {table other : FragmentTable} {selections others : List Selection}

inductive Counterpart : Selection → Selection → Prop where
  | same (selection : Selection) : Counterpart selection selection
  | branch (head : FieldHead) {below moved : List Selection} (braces : Span)
      (inside : Reordered below moved) :
      Counterpart (.branch head below braces) (.branch head moved braces)
  | inline (head : InlineHead) {body moved : List Selection} (braces : Span)
      (inside : Reordered body moved) :
      Counterpart (.inline head body braces) (.inline head moved braces)

theorem Counterpart.trans {first second third : Selection} (before : Counterpart first second)
    (after : Counterpart second third) : Counterpart first third := by
  cases before with
  | same => exact after
  | branch head braces inside =>
      cases after with
      | same => exact .branch head braces inside
      | branch _ _ further => exact .branch head braces (inside.trans further)
  | inline head braces inside =>
      cases after with
      | same => exact .inline head braces inside
      | inline _ _ further => exact .inline head braces (inside.trans further)

theorem Reordered.exists_counterpart (reordered : Reordered selections others)
    {selection : Selection} (member : selection ∈ selections) :
    ∃ moved ∈ others, Counterpart selection moved := by
  induction reordered generalizing selection with
  | nil => cases member
  | keep kept _ induction =>
      rcases List.mem_cons.mp member with rfl | member
      · exact ⟨selection, List.mem_cons_self, .same selection⟩
      · obtain ⟨moved, there, counterpart⟩ := induction member
        exact ⟨moved, List.mem_cons_of_mem _ there, counterpart⟩
  | branch head braces inside _ _ induction =>
      rcases List.mem_cons.mp member with rfl | member
      · exact ⟨_, List.mem_cons_self, .branch head braces inside⟩
      · obtain ⟨moved, there, counterpart⟩ := induction member
        exact ⟨moved, List.mem_cons_of_mem _ there, counterpart⟩
  | inline head braces inside _ _ induction =>
      rcases List.mem_cons.mp member with rfl | member
      · exact ⟨_, List.mem_cons_self, .inline head braces inside⟩
      · obtain ⟨moved, there, counterpart⟩ := induction member
        exact ⟨moved, List.mem_cons_of_mem _ there, counterpart⟩
  | swap first second rest =>
      exact ⟨selection, (List.Perm.swap second first rest).mem_iff.mp member, .same selection⟩
  | trans _ _ before after =>
      obtain ⟨between, there, counterpart⟩ := before member
      obtain ⟨moved, last, further⟩ := after there
      exact ⟨moved, last, counterpart.trans further⟩

theorem Descends.reordered {path : List FieldHead} (descends : Descends table selections path)
    (tables : table.Reordered other) (reordered : Reordered selections others) :
    Descends other others path := by
  induction descends generalizing others with
  | stop => exact .stop
  | leaf member =>
      obtain ⟨_, there, counterpart⟩ := reordered.exists_counterpart member
      cases counterpart with
      | same => exact .leaf there
  | branch member _ induction =>
      obtain ⟨_, there, counterpart⟩ := reordered.exists_counterpart member
      cases counterpart with
      | same => exact .branch there (induction (.refl _))
      | branch _ _ inside => exact .branch there (induction inside)
  | inline member _ induction =>
      obtain ⟨_, there, counterpart⟩ := reordered.exists_counterpart member
      cases counterpart with
      | same => exact .inline there (induction (.refl _))
      | inline _ _ inside => exact .inline there (induction inside)
  | spread member found _ induction =>
      obtain ⟨_, there, counterpart⟩ := reordered.exists_counterpart member
      obtain ⟨_, foundThere, inside⟩ := tables.exists_of_get? found
      cases counterpart with
      | same => exact .spread there foundThere (induction inside)

theorem IsDepth.reordered {depth : Nat} (deep : IsDepth table selections depth)
    (tables : table.Reordered other) (reordered : Reordered selections others) :
    IsDepth other others depth := by
  obtain ⟨⟨path, descends, length⟩, bound⟩ := deep
  refine ⟨⟨path, descends.reordered tables reordered, length⟩, ?_⟩
  rintro _ ⟨longer, descendsThere, rfl⟩
  exact bound ⟨longer, descendsThere.reordered tables.symm reordered.symm, rfl⟩

end Selection

/-! ## Depths and longest paths -/

/-- Where no fragment leads to itself, the measured depth is the number of fields on the longest
path, with every spread expanded anew, and it is the same in whatever order the selections of
the set and of the fragments stand. -/
theorem SelectionSet.depth_is_longest_path {table : FragmentTable} (keyed : table.Keyed)
    (acyclic : ∀ name, ¬ Relation.TransGen table.SpreadsTo name name) (set : SelectionSet) :
    IsGreatest {length | ∃ path, Selection.Descends table set.selections path ∧
        path.length = length} (set.depth table) ∧
      ∀ (other : FragmentTable) (moved : SelectionSet), other.Keyed → table.Reordered other →
        Selection.Reordered set.selections moved.selections →
          moved.depth other = set.depth table := by
  have deep := isDepth_depth keyed acyclic set
  refine ⟨deep, fun other moved keyedThere tables reordered => ?_⟩
  exact (isDepth_depth keyedThere (tables.acyclic acyclic) moved).unique
    (deep.reordered tables reordered)

namespace Recipe

def start : Location := ⟨1, 1⟩

def word (text : String) : Name := ⟨text, default, start⟩

def head (name : String) : FieldHead := ⟨none, word name, [], [], default, start⟩

def leaf (name : String) : Selection := .leaf (head name)

def branch (name : String) (below : List Selection) : Selection :=
  .branch (head name) below default

def spread (name : String) : Selection := .spread ⟨word name, [], default, start⟩

def part (name : String) (selections : List Selection) : FragmentDefinition :=
  ⟨word name, word "Part", [], ⟨selections, default⟩, default, start⟩

def parts : FragmentTable :=
  .ofDefinitions
    [part "Dough" [leaf "flour", spread "Filling", spread "Glaze"],
      part "Filling" [branch "fruit" [leaf "weight"]]]

def cake : SelectionSet :=
  ⟨[branch "cake" [spread "Filling", spread "Dough"], spread "Dough"], default⟩

def partsBackwards : FragmentTable :=
  .ofDefinitions
    [part "Filling" [branch "fruit" [leaf "weight"]],
      part "Dough" [spread "Filling", leaf "flour", spread "Glaze"]]

def cakeBackwards : SelectionSet :=
  ⟨[spread "Dough", branch "cake" [spread "Dough", spread "Filling"]], default⟩

theorem spreadsTo_parts {outer name : String} (spreads : parts.SpreadsTo outer name) :
    outer = "Dough" ∧ name ≠ "Dough" := by
  obtain ⟨fragment, found, node, inside, rfl⟩ := spreads
  change Entries.get? outer [("Dough", _), ("Filling", _)] = some fragment at found
  simp only [Entries.get?] at found
  split at found
  · next same =>
      cases found
      refine ⟨same.symm, ?_⟩
      have either : node = ⟨word "Filling", [], default, start⟩ ∨
          node = ⟨word "Glaze", [], default, start⟩ := by
        simpa [part, spread, leaf, Selection.spreadsAmong, Selection.spreads] using inside
      rcases either with rfl | rfl <;> decide
  · split at found
    · cases found
      cases inside
    · cases found

theorem acyclic_parts (name : String) : ¬ Relation.TransGen parts.SpreadsTo name name := by
  intro cycle
  obtain ⟨_, first, _⟩ := Relation.TransGen.head'_iff.mp cycle
  obtain ⟨_, _, last⟩ := Relation.TransGen.tail'_iff.mp cycle
  exact (spreadsTo_parts last).2 (spreadsTo_parts first).1

theorem reordered_parts : parts.Reordered partsBackwards := by
  intro name
  change Option.Rel _ (Entries.get? name [("Dough", _), ("Filling", _)])
    (Entries.get? name [("Filling", _), ("Dough", _)])
  by_cases dough : "Dough" = name
  · subst dough
    exact .some (.swap _ _ _)
  · by_cases filling : "Filling" = name
    · subst filling
      exact .some (.refl _)
    · simp only [Entries.get?, dough, filling, if_false]
      exact .none

theorem reordered_cake : Selection.Reordered cake.selections cakeBackwards.selections :=
  .trans (.branch _ _ (.swap _ _ _) (.refl _)) (.swap _ _ _)

/-- From the cake over the dough and its filling down to the weight of the fruit. -/
theorem cake_is_three_deep :
    IsGreatest {length | ∃ path, Selection.Descends parts cake.selections path ∧
      path.length = length} 3 ∧ cakeBackwards.depth partsBackwards = 3 := by
  have measured : cake.depth parts = 3 := by decide
  have keyed : parts.Keyed := FragmentTable.keyed_ofDefinitions _
  have deep := SelectionSet.depth_is_longest_path keyed acyclic_parts cake
  rw [measured] at deep
  exact ⟨deep.1, deep.2 partsBackwards cakeBackwards (FragmentTable.keyed_ofDefinitions _)
    reordered_parts reordered_cake⟩

end Recipe

end GraphQuery
