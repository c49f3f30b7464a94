import GraphQuery.Proofs.Schema.References
import GraphQuery.Proofs.Selection.InlinedFields
import Mathlib.Data.List.Perm.Subperm

/-! The expansion of selections without a memory: a fragment is expanded wherever it is
spread. It finds the fields that are collected with a memory, and whatever is wrong with
them, but it finds the same fields again and again. -/

namespace GraphQuery

namespace FragmentTable

def unentered (table : FragmentTable) (path : List String) : Nat :=
  (Entries.names table).countP (· ∉ path)

theorem unentered_lt {table : FragmentTable} {path : List String} {name : String}
    {fragment : FragmentDefinition} (found : Entries.get? name table = some fragment)
    (outside : name ∉ path) : unentered table (name :: path) < unentered table path := by
  have fewer : ∀ names : List String, name ∈ names →
      names.countP (· ∉ name :: path) < names.countP (· ∉ path) := by
    intro names member
    induction names with
    | nil => cases member
    | cons first rest induction =>
        have rest_le : rest.countP (· ∉ name :: path) ≤ rest.countP (· ∉ path) :=
          List.countP_mono_left fun other _ => by simp
        by_cases same : first = name
        · subst same
          simpa [outside] using Nat.lt_succ_of_le rest_le
        · have below := induction ((List.mem_cons.mp member).resolve_left (Ne.symm same))
          by_cases inside : first ∈ path
          · simpa [same, inside] using below
          · simpa [same, inside] using below
  exact fewer _ (Entries.mem_names_of_get? found)

end FragmentTable

namespace Expansion

variable {ρ : Type}

/-! ## Expanding without a memory -/

/-- Whether a fragment with a condition, or without one, is entered for the object: the
condition is the name of its type, or of an interface or a union of which it is a possible
type. -/
def enters (expansion : Expansion ρ) : Option Name → Bool
  | none => true
  | some condition =>
      condition.text == expansion.object.name ||
        match expansion.schema.type? condition.text with
        | some type =>
            type.isAbstract && decide (expansion.object.name ∈
              expansion.schema.possibleTypes condition.text)
        | none => false

theorem applies_eq_enters {expansion : Expansion ρ} (built : expansion.schema.IsBuilt) :
    expansion.applies = expansion.enters := by
  funext condition
  cases condition with
  | none => rfl
  | some condition =>
      by_cases possible : expansion.object.name ∈ expansion.schema.possibleTypes condition.text
      · obtain ⟨type, found, isAbstract⟩ := built.isAbstract_of_possible possible
        simp [applies, enters, Schema.isPossibleType, possible, found, isAbstract]
      · cases found : expansion.schema.type? condition.text <;>
          simp [applies, enters, Schema.isPossibleType, possible, found]

mutual
/-- The fields that selections ask for, inside the fragments of a path. Every spread is
expanded. -/
def expandAll (expansion : Expansion ρ) (path : List String) :
    List Selection → Except SelectionFault (List Field)
  | [] => .ok []
  | selection :: rest => do
      let here ← expandOne expansion path selection
      let there ← expandAll expansion path rest
      return here ++ there
termination_by selections => (expansion.fragments.unentered path, sizeOf selections)

def expandOne (expansion : Expansion ρ) (path : List String) :
    Selection → Except SelectionFault (List Field)
  | .leaf head => do
      if ← isIncluded expansion.bindings head.directives then return [⟨head, none⟩]
      else return []
  | .branch head selections braces => do
      if ← isIncluded expansion.bindings head.directives then
        return [⟨head, some ⟨selections, braces⟩⟩]
      else return []
  | .inline head selections _ => do
      if (← isIncluded expansion.bindings head.directives) &&
          expansion.enters head.typeCondition then
        expandAll expansion path selections
      else return []
  | .spread node => do
      if ← isIncluded expansion.bindings node.directives then
        match _found : Entries.get? node.name.text expansion.fragments with
        | none => .error (.unknownFragment node.name.text node.location)
        | some fragment =>
            if !expansion.enters (some fragment.typeCondition) then return []
            else if _inside : node.name.text ∈ path then
              .error (.fragmentCycle node.name.text node.location)
            else expandAll expansion (node.name.text :: path) fragment.selectionSet.selections
      else return []
termination_by selection => (expansion.fragments.unentered path, sizeOf selection)
decreasing_by
  · decreasing_tactic
  · exact .left _ _ (FragmentTable.unentered_lt ‹_› ‹_›)
end

def expand (expansion : Expansion ρ) (sets : List SelectionSet) :
    Except SelectionFault (List Field) :=
  expansion.expandAll [] (sets.flatMap SelectionSet.selections)

variable {expansion : Expansion ρ} {path : List String}

theorem expandOne_spread (node : FragmentSpread) :
    expansion.expandOne path (.spread node) = do
      if ← isIncluded expansion.bindings node.directives then
        match Entries.get? node.name.text expansion.fragments with
        | none => .error (.unknownFragment node.name.text node.location)
        | some fragment =>
            if !expansion.enters (some fragment.typeCondition) then return []
            else if node.name.text ∈ path then
              .error (.fragmentCycle node.name.text node.location)
            else
              expansion.expandAll (node.name.text :: path) fragment.selectionSet.selections
      else return [] := by
  rw [expandOne]
  refine congrArg _ (funext fun included => ?_)
  cases included with
  | false => rfl
  | true =>
      simp only [if_true]
      split <;> simp_all

/-! ## Expanding beside collecting -/

/-- A path on which none of the fragments stands that have been expanded and left again. -/
def Avoids (collected : Collected) (entered path : List String) : Prop :=
  ∀ name ∈ collected.expanded, name ∈ path → name ∈ entered

theorem Avoids.mono {before after : Collected} {entered path : List String}
    (avoids : Avoids after entered path) (grows : before.expanded ⊆ after.expanded) :
    Avoids before entered path :=
  fun name member => avoids name (grows member)

theorem Avoids.enter {collected : Collected} {entered path : List String}
    (avoids : Avoids collected entered path) (name : String) :
    Avoids collected (name :: entered) (name :: path) := by
  intro other member inside
  rcases List.mem_cons.mp inside with rfl | inside
  · exact List.mem_cons_self
  · exact List.mem_cons_of_mem _ (avoids other member inside)

/-- To expand a fragment again, on any path on which it can still be spread, yields fields
that have been seen, and no fault. -/
def YieldsAgain (expansion : Expansion ρ) (entered : List String) (collected : Collected)
    (seen : List Field) (name : String) : Prop :=
  ∀ fragment, Entries.get? name expansion.fragments = some fragment →
    ∃ fields, fields ⊆ seen ∧ ∀ path, Avoids collected entered path →
      expansion.expandAll (name :: path) fragment.selectionSet.selections = .ok fields

/-- What has been collected inside the fragments `entered`, beside the fields that have been
seen without a memory. -/
structure Remembers (expansion : Expansion ρ) (entered : List String) (collected : Collected)
    (seen : List Field) : Prop where
  fields : ∃ kept, collected.fields = FieldMap.ofFields kept ∧ Repeats id kept seen
  begun : entered ⊆ collected.expanded
  left : ∀ name ∈ collected.expanded, name ∉ entered →
    expansion.YieldsAgain entered collected seen name

/-- Collecting beside expanding: the same fault where collecting stands, or fields that are
yielded wherever nothing stands that has been left. -/
inductive Accords (expansion : Expansion ρ) (entered : List String) (before : Collected)
    (seen : List Field) :
    Except SelectionFault Collected → (List String → Except SelectionFault (List Field)) → Prop
    where
  | fault {yield : List String → Except SelectionFault (List Field)} (fault : SelectionFault)
      (same : yield entered = .error fault) :
      Accords expansion entered before seen (.error fault) yield
  | ok {yield : List String → Except SelectionFault (List Field)} {after : Collected}
      {fields : List Field} (grows : before.expanded ⊆ after.expanded)
      (remembers : expansion.Remembers entered after (seen ++ fields))
      (same : ∀ path, Avoids after entered path → yield path = .ok fields) :
      Accords expansion entered before seen (.ok after) yield

variable {entered : List String} {before : Collected} {seen : List Field}

theorem YieldsAgain.append {name : String}
    (again : expansion.YieldsAgain entered before seen name) (fields : List Field) :
    expansion.YieldsAgain entered before (seen ++ fields) name := by
  intro fragment found
  obtain ⟨yielded, inside, same⟩ := again fragment found
  exact ⟨yielded, List.subset_append_of_subset_left fields inside, same⟩

theorem Remembers.append_known (remembers : expansion.Remembers entered before seen)
    {fields : List Field} (known : fields ⊆ seen) :
    expansion.Remembers entered before (seen ++ fields) := by
  obtain ⟨kept, same, repeats⟩ := remembers.fields
  exact ⟨⟨kept, same, repeats.append_known known⟩, remembers.begun,
    fun name member outside => (remembers.left name member outside).append fields⟩

theorem Remembers.add (remembers : expansion.Remembers entered before seen) (field : Field) :
    expansion.Remembers entered (before.adding [field]) (seen ++ [field]) := by
  obtain ⟨kept, same, repeats⟩ := remembers.fields
  refine ⟨⟨kept ++ [field], ?_, repeats.first field⟩, remembers.begun,
    fun name member outside => (remembers.left name member outside).append [field]⟩
  rw [FieldMap.ofFields_append, ← same]
  rfl

namespace Accords

variable {collect : Except SelectionFault Collected}
  {yield : List String → Except SelectionFault (List Field)}

theorem known (remembers : expansion.Remembers entered before seen) {fields : List Field}
    (inside : fields ⊆ seen)
    (same : ∀ path, Avoids before entered path → yield path = .ok fields) :
    Accords expansion entered before seen (.ok before) yield :=
  .ok (List.Subset.refl _) (remembers.append_known inside) same

theorem unchanged (remembers : expansion.Remembers entered before seen) :
    Accords expansion entered before seen (.ok before) fun _ => .ok [] :=
  known remembers (List.nil_subset seen) fun _ _ => rfl

theorem add (remembers : expansion.Remembers entered before seen) (field : Field) :
    Accords expansion entered before seen (.ok (before.adding [field])) fun _ => .ok [field] :=
  .ok (List.Subset.refl _) (remembers.add field) fun _ _ => rfl

theorem included {condition : Except SelectionFault Bool}
    {collect : Bool → Except SelectionFault Collected}
    {yield : Bool → List String → Except SelectionFault (List Field)}
    (accords : ∀ value, Accords expansion entered before seen (collect value) (yield value)) :
    Accords expansion entered before seen (condition >>= collect)
      fun path => condition >>= fun value => yield value path := by
  cases condition with
  | error fault => exact .fault fault rfl
  | ok value => exact accords value

theorem andThen {next : Collected → Except SelectionFault Collected}
    {others : List String → Except SelectionFault (List Field)}
    (accords : Accords expansion entered before seen collect yield)
    (follows : ∀ after fields, expansion.Remembers entered after (seen ++ fields) →
      Accords expansion entered after (seen ++ fields) (next after) others) :
    Accords expansion entered before seen (collect >>= next) fun path => do
      let here ← yield path
      let there ← others path
      return here ++ there := by
  cases accords with
  | fault fault same =>
      refine .fault fault ?_
      rw [same]
      rfl
  | @ok _ after fields grows remembers same =>
      have later := follows after fields remembers
      rw [Except.ok_bind]
      generalize next after = result at later
      cases later with
      | fault fault fails =>
          refine .fault fault ?_
          rw [same entered fun _ _ inside => inside, Except.ok_bind, fails]
          rfl
      | @ok _ last more growsMore remembers sameMore =>
          rw [List.append_assoc] at remembers
          refine .ok (List.Subset.trans grows growsMore) remembers fun path avoids => ?_
          rw [same path (avoids.mono growsMore), Except.ok_bind, sameMore path avoids]
          rfl

/-- A fragment that is left has been expanded, so it yields again what it has yielded. -/
theorem leave {name : String} {fragment : FragmentDefinition}
    (found : Entries.get? name expansion.fragments = some fragment) (outside : name ∉ entered)
    (accords : Accords expansion (name :: entered)
      { before with expanded := name :: before.expanded } seen collect
      fun path => expansion.expandAll path fragment.selectionSet.selections)
    (enters : ∀ path, name ∉ path →
      yield path = expansion.expandAll (name :: path) fragment.selectionSet.selections) :
    Accords expansion entered before seen collect yield := by
  cases accords with
  | fault fault same => exact .fault fault ((enters entered outside).trans same)
  | @ok _ after fields grows remembers same =>
      obtain ⟨expanded, known⟩ := List.cons_subset.mp grows
      have fresh : ∀ {path}, Avoids after entered path → name ∉ path :=
        fun avoids inside => outside (avoids name expanded inside)
      refine .ok known ⟨remembers.fields, ?_, ?_⟩ fun path avoids => ?_
      · exact fun other member => remembers.begun (List.mem_cons_of_mem _ member)
      · intro other member left fragment' found'
        -- The fields of the fragment that is left are the ones just yielded. Those of the
        -- others were yielded before, on paths that may now run through this fragment too.
        by_cases here : other = name
        · subst here
          cases found.symm.trans found'
          exact ⟨fields, List.subset_append_right seen fields,
            fun path avoids => same _ (avoids.enter other)⟩
        · obtain ⟨yielded, inside, again⟩ := remembers.left other member
            (by simp [here, left]) fragment' found'
          refine ⟨yielded, inside, fun path avoids => again path ?_⟩
          exact fun third member inside => List.mem_cons_of_mem _ (avoids third member inside)
      · rw [enters path (fresh avoids)]
        exact same _ (avoids.enter name)

end Accords

def BodyAccords (expansion : Expansion ρ) (entered : List String)
    (body : FragmentDefinition → Collected → Except SelectionFault Collected) : Prop :=
  ∀ name fragment, Entries.get? name expansion.fragments = some fragment → name ∉ entered →
    ∀ before seen, name ∉ Collected.expanded before →
      expansion.Remembers entered before seen →
      Accords expansion (name :: entered) { before with expanded := name :: before.expanded } seen
        (body fragment { before with expanded := name :: before.expanded })
        fun path => expansion.expandAll path fragment.selectionSet.selections

variable {body : FragmentDefinition → Collected → Except SelectionFault Collected}

theorem accords_spread (built : expansion.schema.IsBuilt)
    (reliable : expansion.BodyAccords entered body) (node : FragmentSpread)
    (remembers : expansion.Remembers entered before seen) :
    Accords expansion entered before seen (collectOne expansion entered body (.spread node) before)
      fun path => expansion.expandOne path (.spread node) := by
  simp only [collectOne, expandOne_spread, applies_eq_enters built, List.contains_iff_mem]
  refine .included fun included => ?_
  cases included with
  | false => exact .unchanged remembers
  | true =>
      cases found : Entries.get? node.name.text expansion.fragments with
      | none => exact .fault _ rfl
      | some fragment =>
          simp only [if_true]
          cases expansion.enters (some fragment.typeCondition) with
          | false => exact .unchanged remembers
          | true =>
              simp only [Bool.not_true, Bool.false_eq_true, if_false]
              split
              next inside => exact .fault _ (if_pos inside)
              next outside =>
                -- Collecting skips the fragment if it knows it. Expanding enters it again, but
                -- all that it finds there has been seen.
                split
                next known =>
                  obtain ⟨fields, inside, again⟩ := remembers.left _ known outside fragment found
                  refine .known remembers inside fun path avoids => ?_
                  rw [if_neg fun on => outside (avoids _ known on)]
                  exact again path avoids
                next unknown =>
                  exact .leave found outside
                    (reliable _ fragment found outside before seen unknown remembers)
                    fun path off => if_neg off

mutual

theorem accords_collectOne (built : expansion.schema.IsBuilt)
    (reliable : expansion.BodyAccords entered body) :
    (selection : Selection) → {before : Collected} → {seen : List Field} →
    expansion.Remembers entered before seen →
    Accords expansion entered before seen (collectOne expansion entered body selection before)
      fun path => expansion.expandOne path selection
  | .leaf head, before, seen, remembers => by
      simp only [collectOne, expandOne]
      refine .included fun included => ?_
      cases included with
      | false => exact .unchanged remembers
      | true => exact .add remembers ⟨head, none⟩
  | .branch head selections braces, before, seen, remembers => by
      simp only [collectOne, expandOne]
      refine .included fun included => ?_
      cases included with
      | false => exact .unchanged remembers
      | true => exact .add remembers ⟨head, some ⟨selections, braces⟩⟩
  | .inline head selections braces, before, seen, remembers => by
      simp only [collectOne, expandOne, applies_eq_enters built]
      refine .included fun included => ?_
      cases (included && expansion.enters head.typeCondition) with
      | false => exact .unchanged remembers
      | true => exact accords_collectAll built reliable selections remembers
  | .spread node, before, seen, remembers => accords_spread built reliable node remembers

theorem accords_collectAll (built : expansion.schema.IsBuilt)
    (reliable : expansion.BodyAccords entered body) :
    (selections : List Selection) → {before : Collected} → {seen : List Field} →
    expansion.Remembers entered before seen →
    Accords expansion entered before seen (collectAll expansion entered body selections before)
      fun path => expansion.expandAll path selections
  | [], before, seen, remembers => by
      simp only [collectAll, expandAll]
      exact .unchanged remembers
  | selection :: rest, before, seen, remembers => by
      simp only [collectAll, expandAll]
      exact (accords_collectOne built reliable selection remembers).andThen
        fun after fields remembers => accords_collectAll built reliable rest remembers

end

/-- The fragments on a path are different ones of the table, so there are always enough
levels. -/
theorem bodyAccords_collectBody (built : expansion.schema.IsBuilt)
    (keyed : expansion.fragments.Keyed) {levels : Nat} (distinct : entered.Nodup)
    (known : entered ⊆ Entries.names expansion.fragments)
    (enough : expansion.fragments.length ≤ levels + entered.length) :
    expansion.BodyAccords entered (collectBody expansion levels entered) := by
  induction levels generalizing entered with
  | zero =>
      intro name fragment found outside
      have bound := (List.subperm_of_subset (List.nodup_cons.mpr ⟨outside, distinct⟩)
        (List.cons_subset.mpr ⟨Entries.mem_names_of_get? found, known⟩)).length_le
      rw [List.length_cons, Entries.length_names] at bound
      omega
  | succ levels induction =>
      intro name fragment found outside before seen unknown remembers
      have reliable : expansion.BodyAccords (name :: entered)
          (collectBody expansion levels (name :: entered)) := by
        refine induction (List.nodup_cons.mpr ⟨outside, distinct⟩)
          (List.cons_subset.mpr ⟨Entries.mem_names_of_get? found, known⟩) ?_
        rw [List.length_cons]
        omega
      have inside : expansion.Remembers (name :: entered)
          { before with expanded := name :: before.expanded } seen := by
        refine ⟨remembers.fields, List.cons_subset_cons name remembers.begun, ?_⟩
        intro other member left fragment' found'
        rw [List.mem_cons, not_or] at left
        obtain ⟨fields, inside, again⟩ := remembers.left other
          ((List.mem_cons.mp member).resolve_left left.1) left.2 fragment' found'
        refine ⟨fields, inside, fun path avoids => again path fun third expanded on => ?_⟩
        have here := List.mem_cons.mp (avoids third (List.mem_cons_of_mem _ expanded) on)
        refine here.resolve_left ?_
        rintro rfl
        exact unknown expanded
      rw [collectBody, keyed.name_eq found]
      exact accords_collectAll built reliable _ inside

/-! ## Merging -/

theorem merge_eq_expand (built : expansion.schema.IsBuilt) (keyed : expansion.fragments.Keyed)
    (sets : List SelectionSet) :
    (∃ fault, expansion.merge sets = .error fault ∧ expansion.expand sets = .error fault) ∨
    ∃ kept seen, expansion.merge sets = .ok (FieldMap.ofFields kept) ∧
      expansion.expand sets = .ok seen ∧ Repeats id kept seen := by
  have reliable := bodyAccords_collectBody built keyed .nil (List.nil_subset _)
    (Nat.le_add_right expansion.fragments.length 0)
  have start : expansion.Remembers [] ⟨[], []⟩ [] :=
    ⟨⟨[], rfl, .nil⟩, List.nil_subset _, fun _ expanded => absurd expanded List.not_mem_nil⟩
  have accords := accords_collectAll built reliable (sets.flatMap SelectionSet.selections) start
  rw [merge, collectSets_eq]
  generalize collectAll expansion [] (collectBody expansion expansion.fragments.length [])
    (sets.flatMap SelectionSet.selections) ⟨[], []⟩ = collected at accords
  cases accords with
  | fault fault same => exact .inl ⟨fault, rfl, same⟩
  | @ok _ after fields _ remembers same =>
      obtain ⟨kept, collected, repeats⟩ := remembers.fields
      have expanded : expansion.expand sets = .ok fields :=
        same [] fun _ _ on => absurd on List.not_mem_nil
      exact .inr ⟨kept, fields, congrArg _ collected, expanded, repeats⟩

end Expansion

end GraphQuery
