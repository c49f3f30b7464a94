import GraphQuery.Document.Parser
import GraphQuery.Json
import GraphQuery.Selection.Depth
import GraphQuery.Selection.Spreads

namespace GraphQuery

/-! What can be said of a document without a schema. -/

/-! ## Checking -/

def OperationDefinition.label (operation : OperationDefinition) : String :=
  match operation.name with
  | some name => name.text
  | none => "<anonymous>"

inductive Problem where
  | selection (fault : SelectionFault)
  | tooDeep (operation : OperationDefinition) (depth : Nat) (limit : Nat)
  | anonymousAmongOthers

def Problem.message : Problem → String
  | .selection fault => fault.message ++ " (" ++ fault.location.render ++ ")"
  | .tooDeep operation depth limit =>
      operation.kind.keyword ++ " " ++ operation.label ++
        s!" has depth of {depth}, which exceeds max depth of {limit} (" ++
        operation.location.render ++ ")"
  | .anonymousAmongOthers =>
      "Anonymous operations must be the only operation in a document"

inductive Verdict where
  | valid (operations : Nat) (fragments : Nat)
  | malformed (error : SyntaxError)
  | invalid (problems : List Problem)

namespace Document

def depthProblems (document : Document) (limit : Nat) : List Problem :=
  document.operations.filterMap fun operation =>
    let depth := operation.selectionSet.depth document.fragments
    if limit < depth then some (.tooDeep operation depth limit) else none

def namingProblems (document : Document) : List Problem :=
  if 1 < document.operations.length ∧
      document.operations.any (fun operation => operation.name.isNone) then
    [.anonymousAmongOthers]
  else []

/-- Check a document. A fault in the spreads is reported alone, since depths mean
nothing before it is mended. -/
def check (document : Document) (maxDepth : Option Nat) : Verdict :=
  match document.checkSpreads with
  | .error fault => .invalid [.selection fault]
  | .ok () =>
      let depths := match maxDepth with
        | some limit => document.depthProblems limit
        | none => []
      match depths ++ document.namingProblems with
      | [] => .valid document.operations.length document.fragments.length
      | problems => .invalid problems

end Document

def checkSource (source : String) (maxDepth : Option Nat) : Verdict :=
  match Document.parse source with
  | .error error => .malformed error
  | .ok document => document.check maxDepth

/-! ## Summaries -/

structure VariableSummary where
  name : String
  type : String
  default : Option String

structure OperationSummary where
  kind : OperationKind
  name : Option String
  variableSummaries : List VariableSummary
  /-- Missing when the spreads of the document have a fault. -/
  depth : Option Nat
  line : Nat

structure FragmentSummary where
  name : String
  typeCondition : String
  line : Nat

structure Summary where
  operations : List OperationSummary
  fragments : List FragmentSummary

namespace Document

def summarize (document : Document) : Summary where
  operations := document.operations.map fun operation =>
    { kind := operation.kind
      name := operation.name.map Name.text
      variableSummaries := operation.variableDefinitions.map fun declared =>
        ⟨declared.name.text, declared.type.render, declared.default.map Literal.render⟩
      depth := match document.checkSpreads with
        | .ok () => some (operation.selectionSet.depth document.fragments)
        | .error _ => none
      line := operation.location.line }
  fragments := document.fragmentDefinitions.map fun fragment =>
    ⟨fragment.name.text, fragment.typeCondition.text, fragment.location.line⟩

end Document

namespace Summary

def optionalText : Option String → Json
  | some text => .string text
  | none => .null

def toJson (summary : Summary) : Json :=
  .object
    [("operations", .array (summary.operations.map fun operation =>
        .object
          [("kind", .string operation.kind.keyword),
            ("name", optionalText operation.name),
            ("variables", .array (operation.variableSummaries.map fun declared =>
              .object
                [("name", .string declared.name), ("type", .string declared.type),
                  ("default", optionalText declared.default)])),
            ("depth", match operation.depth with
              | some depth => .integer depth
              | none => .null),
            ("line", .integer operation.line)])),
      ("fragments", .array (summary.fragments.map fun fragment =>
        .object
          [("name", .string fragment.name), ("on", .string fragment.typeCondition),
            ("line", .integer fragment.line)]))]

def renderVariable (declared : VariableSummary) : String :=
  "    $" ++ declared.name ++ ": " ++ declared.type ++
    (match declared.default with
      | some value => " = " ++ value
      | none => "")

def renderOperation (operation : OperationSummary) : List String :=
  let depth := match operation.depth with
    | some depth => toString depth
    | none => "null"
  ("  " ++ operation.kind.keyword ++ " " ++ operation.name.getD "<anonymous>" ++
      s!" depth {depth} line {operation.line}") ::
    operation.variableSummaries.map renderVariable

def renderFragment (fragment : FragmentSummary) : String :=
  "  " ++ fragment.name ++ " on " ++ fragment.typeCondition ++ s!" line {fragment.line}"

def render (summary : Summary) : List String :=
  [s!"Operations ({summary.operations.length})"] ++
    summary.operations.flatMap renderOperation ++
    [s!"Fragments ({summary.fragments.length})"] ++
    summary.fragments.map renderFragment

end Summary

end GraphQuery
