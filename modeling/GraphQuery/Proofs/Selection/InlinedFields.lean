import GraphQuery.Proofs.Selection.Inlining
import GraphQuery.Proofs.Selection.Repetition

/-! The fields that selections ask for are collected with a memory of the fragments that
have been expanded. They are the fields that the same selections ask for once every spread
has been replaced by what it stands for, without their repetitions. -/

namespace GraphQuery

/-! ## Selections without spreads -/

namespace Selection

mutual
def fieldsAmong (bindings : Variables) (applies : Option Name → Bool) :
    List Selection → Except SelectionFault (List Field)
  | [] => .ok []
  | selection :: rest => do
      let here ← fieldsOf bindings applies selection
      let there ← fieldsAmong bindings applies rest
      return here ++ there

def fieldsOf (bindings : Variables) (applies : Option Name → Bool) :
    Selection → Except SelectionFault (List Field)
  | .leaf head => do
      if ← isIncluded bindings head.directives then return [⟨head, none⟩] else return []
  | .branch head selections braces => do
      if ← isIncluded bindings head.directives then
        return [⟨head, some ⟨selections, braces⟩⟩]
      else return []
  | .inline head selections _ => do
      if (← isIncluded bindings head.directives) && applies head.typeCondition then
        fieldsAmong bindings applies selections
      else return []
  | .spread _ => .ok []
end

variable {bindings : Variables} {applies : Option Name → Bool}

theorem fieldsAmong_append (first second : List Selection) :
    fieldsAmong bindings applies (first ++ second) = do
      let here ← fieldsAmong bindings applies first
      let there ← fieldsAmong bindings applies second
      return here ++ there := by
  induction first with
  | nil => cases found : fieldsAmong bindings applies second <;> simp [fieldsAmong, found]
  | cons selection rest induction =>
      simp only [List.cons_append, fieldsAmong, induction, bind_assoc, pure_bind, List.append_assoc]

theorem spreadsAmong_append (first second : List Selection) :
    spreadsAmong (first ++ second) = spreadsAmong first ++ spreadsAmong second := by
  induction first with
  | nil => rfl
  | cons selection rest induction =>
      rw [List.cons_append, spreadsAmong, spreadsAmong, induction, List.append_assoc]

theorem spreadsAmong_flatMap {sets : List SelectionSet}
    (bare : ∀ set ∈ sets, spreadsAmong set.selections = []) :
    spreadsAmong (sets.flatMap SelectionSet.selections) = [] := by
  induction sets with
  | nil => rfl
  | cons set rest induction =>
      rw [List.forall_mem_cons] at bare
      rw [List.flatMap_cons, spreadsAmong_append, bare.1, induction bare.2, List.append_nil]

theorem exists_fieldsAmong_of_mem {sets : List SelectionSet} {set : SelectionSet}
    (member : set ∈ sets) {all : List Field}
    (found : fieldsAmong bindings applies (sets.flatMap SelectionSet.selections) = .ok all) :
    ∃ fields, fieldsAmong bindings applies set.selections = .ok fields ∧ fields ⊆ all := by
  induction sets generalizing all with
  | nil => cases member
  | cons first rest induction =>
      rw [List.flatMap_cons, fieldsAmong_append] at found
      rcases Except.exists_of_bind found with ⟨here, head, found⟩
      rcases Except.exists_of_bind found with ⟨there, tail, same⟩
      cases same
      rcases List.mem_cons.mp member with rfl | member
      · exact ⟨here, head, List.subset_append_left here there⟩
      · rcases induction member tail with ⟨fields, asked, inside⟩
        exact ⟨fields, asked, fun field inner => List.mem_append_right here (inside inner)⟩

end Selection

/-! ## Collecting -/

def Collected.adding (collected : Collected) (fields : List Field) : Collected :=
  { collected with fields := fields.foldl (fun merged field => merged.add field) collected.fields }

namespace Expansion

open Selection

variable {ρ : Type} {expansion : Expansion ρ} {entered : List String}
  {body : FragmentDefinition → Collected → Except SelectionFault Collected}

abbrev asks (expansion : Expansion ρ) (selections : List Selection) :
    Except SelectionFault (List Field) :=
  fieldsAmong expansion.bindings expansion.applies selections

theorem collectAll_append (first second : List Selection) (collected : Collected) :
    collectAll expansion entered body (first ++ second) collected =
      collectAll expansion entered body first collected >>=
        collectAll expansion entered body second := by
  induction first generalizing collected with
  | nil => rfl
  | cons selection rest induction =>
      simp only [List.cons_append, collectAll, induction, bind_assoc]

theorem collectSets_eq (sets : List SelectionSet) (collected : Collected) :
    collectSets expansion sets collected =
      collectAll expansion [] (collectBody expansion expansion.fragments.length [])
        (sets.flatMap SelectionSet.selections) collected := by
  induction sets generalizing collected with
  | nil => rfl
  | cons set rest induction =>
      simp only [collectSets, List.flatMap_cons, collectAll_append, induction]

mutual

theorem collectOne_of_bare :
    (selection : Selection) → selection.spreads = [] → (collected : Collected) →
    collectOne expansion entered body selection collected =
      (fieldsOf expansion.bindings expansion.applies selection).map collected.adding
  | .leaf head, _, collected => by
      simp only [collectOne, fieldsOf]
      rcases isIncluded expansion.bindings head.directives with fault | ⟨_ | _⟩ <;> rfl
  | .branch head selections braces, _, collected => by
      simp only [collectOne, fieldsOf]
      rcases isIncluded expansion.bindings head.directives with fault | ⟨_ | _⟩ <;> rfl
  | .inline head selections braces, bare, collected => by
      simp only [collectOne, fieldsOf, collectAll_of_bare selections bare collected]
      rcases isIncluded expansion.bindings head.directives with fault | included
      · rfl
      · simp only [Except.ok_bind]
        split <;> rfl
  | .spread node, bare, collected => by cases bare

theorem collectAll_of_bare :
    (selections : List Selection) → spreadsAmong selections = [] → (collected : Collected) →
    collectAll expansion entered body selections collected =
      (expansion.asks selections).map collected.adding
  | [], _, collected => rfl
  | selection :: rest, bare, collected => by
      rcases List.append_eq_nil_iff.mp bare with ⟨here, there⟩
      simp only [collectAll, asks, fieldsAmong, collectOne_of_bare selection here]
      rcases fieldsOf expansion.bindings expansion.applies selection with fault | fields
      · rfl
      · simp only [Except.map, Except.ok_bind, collectAll_of_bare rest there, asks]
        rcases fieldsAmong expansion.bindings expansion.applies rest with fault | others
        · rfl
        · simp [Collected.adding, List.foldl_append]

end

theorem merge_of_bare {sets : List SelectionSet}
    (bare : ∀ set ∈ sets, spreadsAmong set.selections = []) :
    expansion.merge sets =
      (expansion.asks (sets.flatMap SelectionSet.selections)).map FieldMap.ofFields := by
  rw [merge, collectSets_eq, collectAll_of_bare _ (spreadsAmong_flatMap bare)]
  rcases expansion.asks (sets.flatMap SelectionSet.selections) with fault | fields <;> rfl

/-! ## Collecting with a memory -/

variable {names : List String}

/-- The body of a fragment asks for fields that have been seen, and for no others. -/
def AsksAgain (expansion : Expansion ρ) (seen : List Field) (fragment : FragmentDefinition) :
    Prop :=
  ∃ fields, expansion.asks
    (expansion.fragments.inline fragment.selectionSet.selections) = .ok fields ∧ fields ⊆ seen

theorem AsksAgain.append {seen : List Field} {fragment : FragmentDefinition}
    (again : expansion.AsksAgain seen fragment) (fields : List Field) :
    expansion.AsksAgain (seen ++ fields) fragment := by
  rcases again with ⟨asked, found, inside⟩
  exact ⟨asked, found, fun field member => List.mem_append_left _ (inside member)⟩

/-- What has been collected of selections, beside what they ask for without spreads: the
fields are the same up to repetitions, and a fragment that has been expanded asks for
nothing new. -/
structure Tracks (expansion : Expansion ρ) (names : List String) (collected : Collected)
    (seen : List Field) : Prop where
  fields : ∃ kept, collected.fields = FieldMap.ofFields kept ∧
    Repeats (Field.inlined expansion.fragments) kept seen
  expanded : ∀ name ∈ names, name ∈ collected.expanded →
    ∀ fragment, Entries.get? name expansion.fragments = some fragment →
      expansion.AsksAgain seen fragment

/-- Collecting from selections, beside what they ask for without spreads: the same fault,
or what keeps beside each other. Only fragments of the names are expanded. -/
inductive Agree (expansion : Expansion ρ) (names : List String) (before : Collected)
    (seen : List Field) :
    Except SelectionFault Collected → Except SelectionFault (List Field) → Prop where
  | fault (fault : SelectionFault) : Agree expansion names before seen (.error fault) (.error fault)
  | ok {after : Collected} {fields : List Field}
      (tracks : expansion.Tracks names after (seen ++ fields))
      (expanded : ∀ name ∈ after.expanded, name ∈ before.expanded ∨ name ∈ names) :
      Agree expansion names before seen (.ok after) (.ok fields)

variable {before : Collected} {seen : List Field}

theorem Tracks.add (tracks : expansion.Tracks names before seen) (field : Field) :
    expansion.Tracks names (before.adding [field])
      (seen ++ [field.inlined expansion.fragments]) := by
  rcases tracks.fields with ⟨kept, same, repeats⟩
  refine ⟨⟨kept ++ [field], ?_, repeats.first field⟩, ?_⟩
  · rw [FieldMap.ofFields_append, ← same]
    rfl
  · exact fun name member expanded fragment found =>
      (tracks.expanded name member expanded fragment found).append _

theorem Tracks.append_known (tracks : expansion.Tracks names before seen) {fields : List Field}
    (known : fields ⊆ seen) : expansion.Tracks names before (seen ++ fields) := by
  rcases tracks.fields with ⟨kept, same, repeats⟩
  exact ⟨⟨kept, same, repeats.append_known known⟩, fun name member expanded fragment found =>
    (tracks.expanded name member expanded fragment found).append _⟩

namespace Agree

variable {collect : Except SelectionFault Collected}
  {ask : Except SelectionFault (List Field)}

theorem known (tracks : expansion.Tracks names before seen) {fields : List Field}
    (inside : fields ⊆ seen) : Agree expansion names before seen (.ok before) (.ok fields) :=
  .ok (tracks.append_known inside) fun _ member => .inl member

theorem unchanged (tracks : expansion.Tracks names before seen) :
    Agree expansion names before seen (.ok before) (.ok []) :=
  known tracks (List.nil_subset seen)

theorem add (tracks : expansion.Tracks names before seen) (field : Field) :
    Agree expansion names before seen (.ok (before.adding [field]))
      (.ok [field.inlined expansion.fragments]) :=
  .ok (tracks.add field) fun _ member => .inl member

theorem included {condition : Except SelectionFault Bool}
    {collect : Bool → Except SelectionFault Collected}
    {ask : Bool → Except SelectionFault (List Field)}
    (agree : ∀ value, Agree expansion names before seen (collect value) (ask value)) :
    Agree expansion names before seen (condition >>= collect) (condition >>= ask) := by
  cases condition with
  | error fault => exact .fault fault
  | ok value => exact agree value

theorem andThen {next : Collected → Except SelectionFault Collected}
    {others : Except SelectionFault (List Field)}
    (agree : Agree expansion names before seen collect ask)
    (follows : ∀ after fields, expansion.Tracks names after (seen ++ fields) →
      Agree expansion names after (seen ++ fields) (next after) others) :
    Agree expansion names before seen (collect >>= next) (do
      let here ← ask
      let there ← others
      return here ++ there) := by
  cases agree with
  | fault fault => exact .fault fault
  | @ok after fields tracks expanded =>
      have later := follows after fields tracks
      rw [Except.ok_bind, Except.ok_bind]
      generalize next after = result at later
      cases later with
      | fault fault => exact .fault fault
      | @ok last others tracks more =>
          rw [List.append_assoc] at tracks
          refine .ok tracks fun name member => ?_
          rcases more name member with inside | known
          · exact expanded name inside
          · exact .inr known

theorem widen {fewer : List String} {earlier : Collected}
    (agree : Agree expansion fewer earlier seen collect ask)
    (widens : ∀ after fields, ask = .ok fields →
      expansion.Tracks fewer after (seen ++ fields) →
      (∀ name ∈ after.expanded, name ∈ earlier.expanded ∨ name ∈ fewer) →
      expansion.Tracks names after (seen ++ fields) ∧
        ∀ name ∈ after.expanded, name ∈ before.expanded ∨ name ∈ names) :
    Agree expansion names before seen collect ask := by
  cases agree with
  | fault fault => exact .fault fault
  | ok tracks expanded =>
      rcases widens _ _ rfl tracks expanded with ⟨tracks, expanded⟩
      exact .ok tracks expanded

end Agree

def BodyAgrees (expansion : Expansion ρ) (names : List String)
    (body : FragmentDefinition → Collected → Except SelectionFault Collected) : Prop :=
  ∀ name ∈ names, ∀ fragment, Entries.get? name expansion.fragments = some fragment →
    ∀ before seen, name ∉ Collected.expanded before → expansion.Tracks names before seen →
      Agree expansion names before seen
        (body fragment { before with expanded := name :: before.expanded })
        (expansion.asks (expansion.fragments.inline fragment.selectionSet.selections))

mutual

theorem agree_collectOne (ordered : expansion.fragments.Ordered names)
    (outside : ∀ name ∈ names, name ∉ entered) (reliable : expansion.BodyAgrees names body) :
    (selection : Selection) → {before : Collected} → {seen : List Field} →
    (∀ node ∈ selection.spreads, node.name.text ∈ names) →
    expansion.Tracks names before seen →
    Agree expansion names before seen (collectOne expansion entered body selection before)
      (fieldsOf expansion.bindings expansion.applies (expansion.fragments.inlineOne selection))
  | .leaf head, before, seen, within, tracks => by
      simp only [FragmentTable.inlineOne_leaf, collectOne, fieldsOf]
      refine .included fun included => ?_
      cases included with
      | false => exact .unchanged tracks
      | true => exact .add tracks ⟨head, none⟩
  | .branch head selections braces, before, seen, within, tracks => by
      simp only [FragmentTable.inlineOne_branch, collectOne, fieldsOf]
      refine .included fun included => ?_
      cases included with
      | false => exact .unchanged tracks
      | true => exact .add tracks ⟨head, some ⟨selections, braces⟩⟩
  | .inline head selections braces, before, seen, within, tracks => by
      simp only [FragmentTable.inlineOne_inline, collectOne, fieldsOf]
      refine .included fun included => ?_
      split
      · exact agree_collectAll ordered outside reliable selections within tracks
      · exact .unchanged tracks
  | .spread node, before, seen, within, tracks => by
      have member := within node (by simp [spreads])
      rcases ordered.exists_of_mem member with ⟨fragment, found, _⟩
      have fresh : entered.contains node.name.text = false := by
        simpa using outside _ member
      rw [ordered.inlineOne_spread member found]
      simp only [collectOne, fieldsOf, found, FragmentSpread.inlined, fresh]
      refine .included fun included => ?_
      cases included with
      | false => exact .unchanged tracks
      | true =>
          by_cases applies : expansion.applies (some fragment.typeCondition) = true
          · simp only [applies, Bool.and_self, Bool.not_true, Bool.false_eq_true, if_true, if_false]
            split
            · rename_i known
              rw [List.contains_iff_mem] at known
              rcases tracks.expanded _ member known fragment found with ⟨fields, asked, inside⟩
              rw [asks] at asked
              rw [asked]
              exact .known tracks inside
            · rename_i unknown
              rw [List.contains_iff_mem] at unknown
              exact reliable _ member fragment found before seen unknown tracks
          · simp only [applies, Bool.and_false, Bool.not_false, Bool.false_eq_true, if_true,
              if_false]
            exact .unchanged tracks

theorem agree_collectAll (ordered : expansion.fragments.Ordered names)
    (outside : ∀ name ∈ names, name ∉ entered) (reliable : expansion.BodyAgrees names body) :
    (selections : List Selection) → {before : Collected} → {seen : List Field} →
    SpreadsWithin names selections → expansion.Tracks names before seen →
    Agree expansion names before seen (collectAll expansion entered body selections before)
      (expansion.asks (expansion.fragments.inline selections))
  | [], before, seen, within, tracks => .unchanged tracks
  | selection :: rest, before, seen, within, tracks => by
      rcases spreadsWithin_cons.mp within with ⟨here, there⟩
      rw [FragmentTable.inline_cons, asks, fieldsAmong, collectAll]
      exact (agree_collectOne ordered outside reliable selection here tracks).andThen
        fun after fields tracks => agree_collectAll ordered outside reliable rest there tracks

end

/-- A fragment is remembered as expanded while its body is collected. That does no harm,
since the body leads only to fragments after it in the order. -/
theorem bodyAgrees_collectBody (keyed : expansion.fragments.Keyed)
    (ordered : expansion.fragments.Ordered names) {levels : Nat} {entered : List String}
    (enough : names.length ≤ levels) (outside : ∀ name ∈ names, name ∉ entered) :
    expansion.BodyAgrees names (collectBody expansion levels entered) := by
  induction ordered generalizing levels entered with
  | nil => simp [BodyAgrees]
  | @cons first rest fragment found spreads fresh ordered induction =>
      intro name member other otherFound before seen unknown tracks
      rw [List.length_cons] at enough
      have different : ∀ {other}, other ∈ rest → other ≠ first :=
        fun member same => fresh (same ▸ member)
      have remembered : ∀ name ∈ rest, name ∈ before.expanded →
          ∀ fragment, Entries.get? name expansion.fragments = some fragment →
            expansion.AsksAgain seen fragment :=
        fun name member => tracks.expanded name (List.mem_cons_of_mem _ member)
      rcases List.mem_cons.mp member with rfl | member
      · -- the fragment itself, whose body leads to the rest only
        rw [found, Option.some.injEq] at otherFound
        subst otherFound
        rcases Nat.exists_eq_add_of_le' (Nat.le_trans (Nat.le_add_left 1 _) enough)
          with ⟨fewer, rfl⟩
        have start : expansion.Tracks rest { before with expanded := name :: before.expanded }
            seen := by
          refine ⟨tracks.fields, fun other member expanded => ?_⟩
          rcases List.mem_cons.mp expanded with same | expanded
          · exact absurd same (different member)
          · exact remembered other member expanded
        have beyond : ∀ other ∈ rest, other ∉ fragment.name.text :: entered := by
          intro other member inside
          rcases List.mem_cons.mp inside with same | inside
          · exact different member (same.trans (keyed.name_eq found))
          · exact outside other (List.mem_cons_of_mem _ member) inside
        rw [collectBody]
        refine (agree_collectAll ordered beyond
          (induction (Nat.le_of_succ_le_succ enough) beyond) _ spreads start).widen ?_
        intro after fields asked tracks expanded
        refine ⟨⟨tracks.fields, ?_⟩, ?_⟩
        · intro other member inside fragment otherFound
          rcases List.mem_cons.mp member with rfl | member
          · rw [found, Option.some.injEq] at otherFound
            subst otherFound
            exact ⟨fields, asked, List.subset_append_right seen fields⟩
          · exact tracks.expanded other member inside fragment otherFound
        · intro other inside
          rcases expanded other inside with inside | inside
          · rcases List.mem_cons.mp inside with rfl | inside
            · exact .inr List.mem_cons_self
            · exact .inl inside
          · exact .inr (List.mem_cons_of_mem _ inside)
      · refine (induction (Nat.le_of_succ_le enough)
          (fun other member => outside other (List.mem_cons_of_mem _ member)) name member other
          otherFound before seen unknown ⟨tracks.fields, remembered⟩).widen ?_
        intro after fields asked inner expanded
        refine ⟨⟨inner.fields, ?_⟩, ?_⟩
        · intro other otherMember inside fragment otherFound
          rcases List.mem_cons.mp otherMember with rfl | otherMember
          · rcases expanded other inside with inside | inside
            · exact (tracks.expanded other (by simp) inside fragment otherFound).append _
            · exact absurd inside fresh
          · exact inner.expanded other otherMember inside fragment otherFound
        · intro other inside
          exact (expanded other inside).imp_right (List.mem_cons_of_mem _)

/-! ## Merging -/

/-- Selection sets are merged like what they stand for, also if the latter contain
repetitions. -/
theorem agree_collectSets (keyed : expansion.fragments.Keyed)
    (ordered : expansion.fragments.Ordered names) {sets others : List SelectionSet}
    (within : ∀ set ∈ sets, SpreadsWithin names set.selections)
    (repeats : Repeats (SelectionSet.inlined expansion.fragments) sets others) :
    Agree expansion names ⟨[], []⟩ [] (expansion.collectSets sets ⟨[], []⟩)
      (expansion.asks (others.flatMap SelectionSet.selections)) := by
  have start : expansion.Tracks names ⟨[], []⟩ [] :=
    ⟨⟨[], rfl, .nil⟩, fun _ _ expanded => nomatch expanded⟩
  have reliable : expansion.BodyAgrees names
      (collectBody expansion expansion.fragments.length []) :=
    bodyAgrees_collectBody keyed ordered ordered.length_le (by simp)
  rw [collectSets_eq]
  induction repeats with
  | nil => exact .unchanged start
  | first set _ induction =>
      rw [List.forall_mem_append] at within
      rw [List.flatMap_append, List.flatMap_append, collectAll_append, asks, fieldsAmong_append]
      refine (induction within.1).andThen fun after fields tracks => ?_
      rw [List.flatMap_singleton, List.flatMap_singleton]
      exact agree_collectAll ordered (by simp) reliable _ (within.2 set (by simp)) tracks
  | @again kept seen set known _ induction =>
      have agree := induction within
      rw [List.flatMap_append, asks, fieldsAmong_append, List.flatMap_singleton]
      generalize collectAll expansion [] (collectBody expansion expansion.fragments.length [])
        (kept.flatMap SelectionSet.selections) ⟨[], []⟩ = result at agree
      cases asked : expansion.asks (seen.flatMap SelectionSet.selections) with
      | error fault =>
          rw [asked] at agree
          cases agree
          rw [asks] at asked
          rw [asked]
          exact .fault fault
      | ok all =>
          rcases exists_fieldsAmong_of_mem known asked with ⟨fields, again, inside⟩
          rw [asked] at agree
          cases agree with
          | ok tracks expanded =>
              rw [asks] at asked
              rw [asked, again]
              exact .ok (tracks.append_known inside) expanded

theorem merge_inlined (keyed : expansion.fragments.Keyed)
    (ordered : expansion.fragments.Ordered names) {sets others : List SelectionSet}
    (within : ∀ set ∈ sets, SpreadsWithin names set.selections)
    (repeats : Repeats (SelectionSet.inlined expansion.fragments) sets others)
    (table : FragmentTable) :
    (∃ fault, expansion.merge sets = .error fault ∧
      Expansion.merge { expansion with fragments := table } others = .error fault) ∨
    ∃ fields followers, expansion.merge sets = .ok fields ∧
      Expansion.merge { expansion with fragments := table } others = .ok followers ∧
      FieldMap.StandFor (Field.inlined expansion.fragments) fields followers := by
  have agree := agree_collectSets keyed ordered within repeats
  have bare : ∀ set ∈ others, spreadsAmong set.selections = [] := by
    intro set member
    rcases repeats.exists_of_mem member with ⟨source, inside, rfl⟩
    exact ordered.spreadsAmong_inline (within source inside)
  have plain : Expansion.merge { expansion with fragments := table } others =
      (expansion.asks (others.flatMap SelectionSet.selections)).map FieldMap.ofFields :=
    merge_of_bare bare
  rw [plain, merge]
  generalize expansion.collectSets sets ⟨[], []⟩ = collected at agree
  generalize expansion.asks (others.flatMap SelectionSet.selections) = asked at agree
  cases agree with
  | fault fault => exact .inl ⟨fault, rfl, rfl⟩
  | @ok after fields tracks _ =>
      rcases tracks.fields with ⟨kept, same, repeats⟩
      refine .inr ⟨after.fields, FieldMap.ofFields fields, rfl, rfl, ?_⟩
      have sameKey : ∀ field : Field, (field.inlined expansion.fragments).head.responseKey =
          field.head.responseKey := fun _ => rfl
      rw [same]
      exact FieldMap.standFor_ofFields sameKey repeats

end Expansion

end GraphQuery
