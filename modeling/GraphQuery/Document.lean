import GraphQuery.Document.Literal
import GraphQuery.Entries
import GraphQuery.TypeRef

namespace GraphQuery

/-! Documents: operations and the fragments they share. Every node knows where
its text begins; its span also takes in the token that follows it. -/

abbrev TypeNode := TypeShape Name

namespace TypeNode

def render (type : TypeNode) : String := TypeShape.renderWith Name.text type

def toTypeRef (type : TypeNode) : TypeRef := TypeShape.relabel Name.text type

end TypeNode

structure Argument where
  name : Name
  value : Literal
  span : Span
  location : Location

structure Directive where
  name : Name
  arguments : List Argument
  span : Span
  location : Location

def Argument.find? (name : String) (arguments : List Argument) : Option Argument :=
  arguments.find? fun argument => argument.name.text == name

/-! ## Selections -/

/-- A field without its selections. Its label, if it has one, takes the place of its
name in the response. -/
structure FieldHead where
  label : Option Name
  name : Name
  arguments : List Argument
  directives : List Directive
  span : Span
  location : Location

def FieldHead.responseKey (head : FieldHead) : String :=
  (head.label.getD head.name).text

structure FragmentSpread where
  name : Name
  directives : List Directive
  span : Span
  location : Location

structure InlineHead where
  typeCondition : Option Name
  directives : List Directive
  span : Span
  location : Location

/-- A field is a leaf or has selections in braces of its own. -/
inductive Selection where
  | leaf (head : FieldHead)
  | branch (head : FieldHead) (selections : List Selection) (braces : Span)
  | spread (node : FragmentSpread)
  | inline (head : InlineHead) (selections : List Selection) (braces : Span)

namespace Selection

def directives : Selection → List Directive
  | .leaf head => head.directives
  | .branch head _ _ => head.directives
  | .spread node => node.directives
  | .inline head _ _ => head.directives

def location : Selection → Location
  | .leaf head => head.location
  | .branch head _ _ => head.location
  | .spread node => node.location
  | .inline head _ _ => head.location

end Selection

structure SelectionSet where
  selections : List Selection
  span : Span

/-! ## Definitions -/

inductive OperationKind where
  | query
  | mutation
  | subscription
deriving DecidableEq, Repr

namespace OperationKind

def keyword : OperationKind → String
  | .query => "query"
  | .mutation => "mutation"
  | .subscription => "subscription"

def ofKeyword? : String → Option OperationKind
  | "query" => some .query
  | "mutation" => some .mutation
  | "subscription" => some .subscription
  | _ => none

end OperationKind

structure VariableDefinition where
  name : Name
  type : TypeNode
  default : Option Literal
  span : Span
  location : Location

structure OperationDefinition where
  kind : OperationKind
  name : Option Name
  variableDefinitions : List VariableDefinition
  directives : List Directive
  selectionSet : SelectionSet
  span : Span
  location : Location

structure FragmentDefinition where
  name : Name
  typeCondition : Name
  directives : List Directive
  selectionSet : SelectionSet
  span : Span
  location : Location

inductive Definition where
  | operation (definition : OperationDefinition)
  | fragment (definition : FragmentDefinition)

def Definition.location : Definition → Location
  | .operation definition => definition.location
  | .fragment definition => definition.location

structure Document where
  definitions : List Definition
  span : Span

abbrev FragmentTable := Entries FragmentDefinition

def FragmentTable.ofDefinitions (definitions : List FragmentDefinition) : FragmentTable :=
  definitions.foldl
    (fun table definition =>
      if Entries.contains definition.name.text table then table
      else Entries.insert definition.name.text definition table)
    []

namespace Document

def isEmpty (document : Document) : Bool := document.definitions.isEmpty

def operations (document : Document) : List OperationDefinition :=
  document.definitions.filterMap fun
    | .operation definition => some definition
    | .fragment _ => none

def fragmentDefinitions (document : Document) : List FragmentDefinition :=
  document.definitions.filterMap fun
    | .operation _ => none
    | .fragment definition => some definition

def fragments (document : Document) : FragmentTable :=
  FragmentTable.ofDefinitions document.fragmentDefinitions

def fragment? (document : Document) (name : String) : Option FragmentDefinition :=
  document.fragmentDefinitions.find? fun definition => definition.name.text == name

def operation? (document : Document) (name : String) : Option OperationDefinition :=
  document.operations.find? fun definition =>
    definition.name.any fun operationName => operationName.text == name

end Document

end GraphQuery
