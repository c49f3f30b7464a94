import GraphQuery.Proofs.Execution.CheckedRequests
import GraphQuery.Proofs.Selection.SpreadFaults
import Mathlib.Data.List.Nodup

/-! A fragment may be defined again under the same name. The first definition counts, and what
the later ones spread is not looked at. -/

namespace GraphQuery

/-! ## Definitions that count -/

theorem FragmentTable.mem_names_ofDefinitions {definitions : List FragmentDefinition}
    {name : String} : name ∈ Entries.names (ofDefinitions definitions) ↔
      ∃ fragment ∈ definitions, fragment.name.text = name := by
  rw [← not_iff_not, ← Entries.get?_eq_none_iff, get?_ofDefinitions, List.find?_eq_none]
  simp

namespace Document

variable {document : Document} {name : String}

def Defines (document : Document) (name : String) : Prop :=
  ∃ fragment ∈ document.fragmentDefinitions, fragment.name.text = name

/-- Every spread among these selections, at any depth, names a fragment of the document. -/
def Resolves (document : Document) (selections : List Selection) : Prop :=
  ∀ node ∈ Selection.spreadsAmong selections, document.Defines node.name.text

def SpreadsTo (document : Document) (name other : String) : Prop :=
  ∃ fragment ∈ document.fragmentDefinitions, fragment.name.text = name ∧
    ∃ node ∈ Selection.spreadsAmong fragment.selectionSet.selections, node.name.text = other

def DefinesOnce (document : Document) : Prop :=
  (document.fragmentDefinitions.map fun fragment => fragment.name.text).Nodup

theorem get?_fragments (document : Document) (name : String) :
    Entries.get? name document.fragments = document.fragment? name :=
  FragmentTable.get?_ofDefinitions document.fragmentDefinitions name

theorem defines_of_fragment? {fragment : FragmentDefinition}
    (found : document.fragment? name = some fragment) : document.Defines name :=
  ⟨fragment, List.mem_of_find?_eq_some found, by simpa using List.find?_some found⟩

theorem DefinesOnce.fragment?_eq (once : document.DefinesOnce) {fragment : FragmentDefinition}
    (member : fragment ∈ document.fragmentDefinitions) :
    document.fragment? fragment.name.text = some fragment := by
  cases found : document.fragment? fragment.name.text with
  | none => exact absurd (beq_self_eq_true _) (List.find?_eq_none.mp found fragment member)
  | some first =>
      have named : first.name.text = fragment.name.text := by simpa using List.find?_some found
      rw [List.inj_on_of_nodup_map once (List.mem_of_find?_eq_some found) member named]

theorem DefinesOnce.spreadsTo (once : document.DefinesOnce) {other : String}
    (spreads : document.SpreadsTo name other) : document.fragments.SpreadsTo name other := by
  obtain ⟨fragment, member, rfl, spread⟩ := spreads
  exact ⟨fragment, (get?_fragments document _).trans (once.fragment?_eq member), spread⟩

theorem resolves_of_checkSpreads (passed : document.checkSpreads = .ok ()) :
    (∀ operation ∈ document.operations, document.Resolves operation.selectionSet.selections) ∧
    ∀ name fragment, document.fragment? name = some fragment →
      document.Resolves fragment.selectionSet.selections ∧
        ¬ Relation.TransGen document.fragments.SpreadsTo name name := by
  obtain ⟨known, acyclic⟩ := (checkSpreads_is_exact document).1.mp passed
  refine ⟨fun operation member node inside => ?_, fun name fragment first => ⟨?_, ?_⟩⟩
  · exact FragmentTable.mem_names_ofDefinitions.mp (known node (.operation member inside))
  · intro node inside
    rw [← get?_fragments] at first
    exact FragmentTable.mem_names_ofDefinitions.mp (known node (.fragment first inside))
  · exact acyclic name (FragmentTable.mem_names_ofDefinitions.mpr (defines_of_fragment? first))

end Document

/-! ## Definitions that do not count -/

theorem FragmentTable.ofDefinitions_of_redefined {before after : List FragmentDefinition}
    {fragment : FragmentDefinition}
    (redefined : ∃ earlier ∈ before, earlier.name.text = fragment.name.text) :
    ofDefinitions (before ++ fragment :: after) = ofDefinitions (before ++ after) := by
  have known := Entries.contains_iff.mpr (mem_names_ofDefinitions.mpr redefined)
  unfold ofDefinitions at known ⊢
  rw [List.foldl_append, List.foldl_append, List.foldl_cons, if_pos known]

namespace Spreads

open FragmentTable

variable {table : FragmentTable} {checked : Checked} {fragment : FragmentDefinition}

theorem checkFragments_append (before after : List FragmentDefinition) :
    checkFragments table (before ++ after) checked =
      checkFragments table before checked >>= checkFragments table after := by
  induction before generalizing checked with
  | nil => rfl
  | cons fragment rest induction =>
      simp only [List.cons_append, checkFragments]
      split
      · exact induction
      · simp only [bind_assoc, induction]

theorem checkFragments_of_redefined {before : List FragmentDefinition}
    (after : List FragmentDefinition) (keyed : Keyed table)
    (firsts : StandFirst table before checked) (ordered : Ordered table checked)
    (redefined : ∃ earlier ∈ before, earlier.name.text = fragment.name.text) :
    checkFragments table (before ++ fragment :: after) checked =
      checkFragments table (before ++ after) checked := by
  rw [checkFragments_append, checkFragments_append]
  cases done : checkFragments table before checked with
  | error fault => rfl
  | ok later =>
      obtain ⟨_, _, all⟩ := progress_checkFragments keyed done firsts ordered
      obtain ⟨earlier, member, same⟩ := redefined
      have known : later.contains fragment.name.text = true :=
        List.contains_iff_mem.mpr (same ▸ all earlier member)
      change checkFragments table (fragment :: after) later = checkFragments table after later
      rw [checkFragments, if_pos known]

end Spreads

namespace Document

section Redefined

variable {before after : List Definition} {span : Span} {fragment : FragmentDefinition}

theorem fragmentDefinitions_append (before after : List Definition) (span : Span) :
    (Document.mk (before ++ after) span).fragmentDefinitions =
      (Document.mk before span).fragmentDefinitions ++
        (Document.mk after span).fragmentDefinitions :=
  List.filterMap_append

theorem fragmentDefinitions_cons (fragment : FragmentDefinition) (after : List Definition)
    (span : Span) : (Document.mk (.fragment fragment :: after) span).fragmentDefinitions =
      fragment :: (Document.mk after span).fragmentDefinitions :=
  rfl

theorem fragments_of_redefined (redefined : (Document.mk before span).Defines fragment.name.text) :
    (Document.mk (before ++ .fragment fragment :: after) span).fragments =
      (Document.mk (before ++ after) span).fragments := by
  simp only [fragments, fragmentDefinitions_append, fragmentDefinitions_cons]
  exact FragmentTable.ofDefinitions_of_redefined redefined

theorem operations_of_redefined :
    (Document.mk (before ++ .fragment fragment :: after) span).operations =
      (Document.mk (before ++ after) span).operations := by
  simp only [operations, List.filterMap_append, List.filterMap_cons]

/-- A definition of a name that has been defined before changes nothing. -/
theorem checkSpreads_of_redefined
    (redefined : (Document.mk before span).Defines fragment.name.text) :
    (Document.mk (before ++ .fragment fragment :: after) span).checkSpreads =
      (Document.mk (before ++ after) span).checkSpreads := by
  simp only [checkSpreads, fragments_of_redefined redefined, operations_of_redefined,
    fragmentDefinitions_append, fragmentDefinitions_cons]
  have keyed : (Document.mk (before ++ after) span).fragments.Keyed :=
    FragmentTable.keyed_ofDefinitions _
  have firsts : ∀ checked, Spreads.StandFirst (Document.mk (before ++ after) span).fragments
      (Document.mk before span).fragmentDefinitions checked := by
    intro checked name first _ found
    rw [get?_fragments, fragment?, fragmentDefinitions_append, List.find?_append, found]
    rfl
  generalize (Document.mk (before ++ after) span).fragments = table at keyed firsts ⊢
  cases passed : Spreads.checkOperations table (Document.mk (before ++ after) span).operations []
    with
  | error fault => rfl
  | ok checked =>
      have ordered := (Spreads.progress_checkOperations keyed passed .nil).1
      have skipped := Spreads.checkFragments_of_redefined
        (Document.mk after span).fragmentDefinitions keyed (firsts checked) ordered redefined
      exact congrArg (· >>= fun _ => Except.ok ()) skipped

theorem check_of_redefined (redefined : (Document.mk before span).Defines fragment.name.text)
    (maxDepth : Option Nat) :
    (Document.mk (before ++ .fragment fragment :: after) span).check maxDepth =
      (Document.mk (before ++ after) span).check maxDepth := by
  simp only [check, depthProblems, namingProblems, checkSpreads_of_redefined redefined,
    fragments_of_redefined redefined, operations_of_redefined]

end Redefined

/-- Of a source that is found valid, every operation and every fragment definition that is the
first of its name spread only fragments that are defined, and no such fragment leads to itself.
Where no name is defined twice, these are all definitions. What a definition of a name that
has been defined before says makes no difference to the verdict. -/
theorem first_definitions_resolve {source : String} {maxDepth : Option Nat}
    {operations fragments : Nat}
    (checked : checkSource source maxDepth = .valid operations fragments) :
    ∃ document, Document.parse source = .ok document ∧
      (∀ operation ∈ document.operations, document.Resolves operation.selectionSet.selections) ∧
      (∀ name fragment, document.fragment? name = some fragment →
        document.Resolves fragment.selectionSet.selections ∧
          ¬ Relation.TransGen document.fragments.SpreadsTo name name) ∧
      (document.DefinesOnce → ∀ fragment ∈ document.fragmentDefinitions,
        document.Resolves fragment.selectionSet.selections ∧
          ¬ Relation.TransGen document.SpreadsTo fragment.name.text fragment.name.text) ∧
      ∀ before fragment after other,
        document.definitions = before ++ .fragment fragment :: after →
        (Document.mk before document.span).Defines fragment.name.text →
        other.name.text = fragment.name.text →
        (Document.mk (before ++ .fragment other :: after) document.span).check maxDepth =
          .valid operations fragments := by
  cases parsed : Document.parse source with
  | error error =>
      simp only [checkSource, parsed] at checked
      cases checked
  | ok document =>
      rw [check_of_checkSource parsed] at checked
      obtain ⟨inOperations, inFragments⟩ := resolves_of_checkSpreads (checkSpreads_of_valid checked)
      refine ⟨document, rfl, inOperations, inFragments, fun once fragment member => ?_, ?_⟩
      · obtain ⟨resolves, acyclic⟩ := inFragments _ fragment (once.fragment?_eq member)
        exact ⟨resolves, fun cycle => acyclic (cycle.lift id fun _ _ => once.spreadsTo)⟩
      · intro before fragment after other whole redefined same
        obtain ⟨definitions, span⟩ := document
        dsimp only at whole redefined ⊢
        subst whole
        rw [check_of_redefined (same ▸ redefined), ← check_of_redefined redefined, checked]

end Document

/-! ## A reprint -/

namespace Reprint

def source : String :=
  "\x7b ...book \x7d fragment book on Book \x7b title \x7d " ++
    "fragment book on Book \x7b ...author \x7d"

theorem check_source : checkSource source none = .valid 1 1 := by cbv

theorem spreads_of_source :
    (Document.parse source).toOption.map (fun document =>
      document.fragmentDefinitions.map fun fragment =>
        (fragment.name.text, (Selection.spreadsAmong fragment.selectionSet.selections).map
          fun node => node.name.text)) =
      some [("book", []), ("book", ["author"])] := by
  cbv

/-- The source is found valid all the same. -/
theorem author_is_not_missed : checkSource source none = .valid 1 1 ∧
    ∃ document, Document.parse source = .ok document ∧
      ∃ fragment ∈ document.fragmentDefinitions,
        ¬ document.Resolves fragment.selectionSet.selections := by
  obtain ⟨document, parsed, found⟩ := Option.map_eq_some_iff.mp spreads_of_source
  have books : ∀ fragment ∈ document.fragmentDefinitions, fragment.name.text = "book" := by
    intro fragment member
    have listed := found ▸ List.mem_map.mpr ⟨fragment, member, rfl⟩
    simp only [List.mem_cons, Prod.mk.injEq, List.not_mem_nil, or_false] at listed
    exact listed.elim And.left And.left
  obtain ⟨second, member, body⟩ := List.mem_map.mp
    (found ▸ List.mem_cons_of_mem _ (List.mem_singleton_self ("book", ["author"])))
  have spreads : "author" ∈ (Selection.spreadsAmong second.selectionSet.selections).map
      fun node => node.name.text := by
    rw [(Prod.mk.inj body).2]
    exact List.mem_singleton_self _
  refine ⟨check_source, document, Except.eq_ok_of_toOption parsed, second, member,
    fun resolves => ?_⟩
  obtain ⟨node, inside, named⟩ := List.mem_map.mp spreads
  obtain ⟨author, defined, called⟩ := resolves node inside
  rw [books author defined, named] at called
  exact absurd called (by decide)

/-- What is spread in the operation is defined. -/
theorem book_is_defined : checkSource source none = .valid 1 1 ∧
    ∃ document, Document.parse source = .ok document ∧
      ∀ operation ∈ document.operations, document.Resolves operation.selectionSet.selections := by
  obtain ⟨document, parsed, resolves, _⟩ := Document.first_definitions_resolve check_source
  exact ⟨check_source, document, parsed, resolves⟩

end Reprint

end GraphQuery
