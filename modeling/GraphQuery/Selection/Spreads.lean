import GraphQuery.Document
import GraphQuery.Selection.Fault

namespace GraphQuery

/-! Whether every spread of a document names a fragment, and no fragment is
spread inside itself. A fragment that has been gone through once without a fault
is not gone through again. -/

namespace Spreads

abbrev Checked := List String

mutual
def checkAll (table : FragmentTable) (entered : List String)
    (body : FragmentDefinition → Checked → Except SelectionFault Checked) :
    List Selection → Checked → Except SelectionFault Checked
  | [], checked => .ok checked
  | selection :: rest, checked => do
      let checked ← checkOne table entered body selection checked
      checkAll table entered body rest checked

def checkOne (table : FragmentTable) (entered : List String)
    (body : FragmentDefinition → Checked → Except SelectionFault Checked) :
    Selection → Checked → Except SelectionFault Checked
  | .leaf _, checked => .ok checked
  | .branch _ selections _, checked => checkAll table entered body selections checked
  | .inline _ selections _, checked => checkAll table entered body selections checked
  | .spread node, checked =>
      match Entries.get? node.name.text table with
      | none => .error (.unknownFragment node.name.text node.location)
      | some fragment =>
          if entered.contains node.name.text then
            .error (.fragmentCycle node.name.text node.location)
          else if checked.contains node.name.text then .ok checked
          else do
            let checked ← body fragment checked
            return node.name.text :: checked
end

/-- Go through the body of a fragment. The fragments entered on the way to a
selection all have different names, so the size of the table is enough `levels`. -/
def checkBody (table : FragmentTable) :
    (levels : Nat) → List String → FragmentDefinition → Checked →
      Except SelectionFault Checked
  | 0, _, _, checked => .ok checked
  | levels + 1, entered, fragment, checked =>
      let entered := fragment.name.text :: entered
      checkAll table entered (checkBody table levels entered)
        fragment.selectionSet.selections checked

def checkOperations (table : FragmentTable) :
    List OperationDefinition → Checked → Except SelectionFault Checked
  | [], checked => .ok checked
  | operation :: rest, checked => do
      let checked ← checkAll table [] (checkBody table table.length [])
        operation.selectionSet.selections checked
      checkOperations table rest checked

def checkFragments (table : FragmentTable) :
    List FragmentDefinition → Checked → Except SelectionFault Checked
  | [], checked => .ok checked
  | fragment :: rest, checked =>
      if checked.contains fragment.name.text then checkFragments table rest checked
      else do
        let checked ← checkBody table (table.length + 1) [] fragment checked
        checkFragments table rest (fragment.name.text :: checked)

end Spreads

/-- The first fault among the spreads of a document, operations first. -/
def Document.checkSpreads (document : Document) : Except SelectionFault Unit := do
  let table := document.fragments
  let checked ← Spreads.checkOperations table document.operations []
  let _ ← Spreads.checkFragments table document.fragmentDefinitions checked
  return ()

end GraphQuery
