import GraphQuery.Document

namespace GraphQuery

/-! How deeply fields are nested. Fragments are followed where they are spread
and measured once; a spread of an unknown fragment, or of one that is still
being measured, counts nothing. -/

namespace Depth

abbrev Measured := Entries Nat

mutual
def ofAll (table : FragmentTable)
    (ofFragment : FragmentDefinition → Measured → Nat × Measured) :
    List Selection → Measured → Nat × Measured
  | [], measured => (0, measured)
  | selection :: rest, measured =>
      let (depth, measured) := ofOne table ofFragment selection measured
      let (others, measured) := ofAll table ofFragment rest measured
      (max depth others, measured)

def ofOne (table : FragmentTable)
    (ofFragment : FragmentDefinition → Measured → Nat × Measured) :
    Selection → Measured → Nat × Measured
  | .leaf _, measured => (1, measured)
  | .branch _ selections _, measured =>
      let (depth, measured) := ofAll table ofFragment selections measured
      (depth + 1, measured)
  | .inline _ selections _, measured => ofAll table ofFragment selections measured
  | .spread node, measured =>
      match Entries.get? node.name.text table with
      | some fragment => ofFragment fragment measured
      | none => (0, measured)
end

/-- The depth of a fragment. Those that are being measured at one time all have
different names, so the size of the table is enough `levels`. -/
def ofFragment (table : FragmentTable) :
    (levels : Nat) → FragmentDefinition → Measured → Nat × Measured
  | 0, _, measured => (0, measured)
  | levels + 1, fragment, measured =>
      match Entries.get? fragment.name.text measured with
      | some depth => (depth, measured)
      | none =>
          let (depth, measured) := ofAll table (ofFragment table levels)
            fragment.selectionSet.selections (Entries.insert fragment.name.text 0 measured)
          (depth, Entries.insert fragment.name.text depth measured)

end Depth

def SelectionSet.depth (table : FragmentTable) (set : SelectionSet) : Nat :=
  (Depth.ofAll table (Depth.ofFragment table (table.length + 1)) set.selections []).1

end GraphQuery
