import GraphQuery.Document

namespace GraphQuery

/-! Documents without places, and how deeply they are nested. Two readings of
one text agree in everything but the places. -/

/-! ## Names, literals and types -/

def Name.plain (text : String) : Name := ⟨text, Span.empty 0, Location.start⟩

def Name.bare (name : Name) : Name := Name.plain name.text

namespace Literal

mutual
def bare : Literal → Literal
  | .reference name => .reference name.bare
  | .int value => .int value
  | .float value => .float value
  | .string value => .string value
  | .boolean value => .boolean value
  | .null => .null
  | .symbol name => .symbol name
  | .list items => .list (bareItems items)
  | .object fields => .object (bareFields fields)

def bareItems : List Literal → List Literal
  | [] => []
  | item :: rest => bare item :: bareItems rest

def bareFields : List (Name × Literal) → List (Name × Literal)
  | [] => []
  | (name, value) :: rest => (name.bare, bare value) :: bareFields rest
end

def bareField (field : Name × Literal) : Name × Literal := (field.1.bare, field.2.bare)

@[simp] theorem bareItems_eq (items : List Literal) : bareItems items = items.map bare := by
  induction items with
  | nil => rfl
  | cons item rest induction => rw [bareItems, induction, List.map_cons]

@[simp] theorem bareFields_eq (fields : List (Name × Literal)) :
    bareFields fields = fields.map bareField := by
  induction fields with
  | nil => rfl
  | cons field rest induction =>
      rcases field with ⟨name, value⟩
      rw [bareFields, induction, List.map_cons, bareField]

theorem bare_list (items : List Literal) : (list items).bare = .list (items.map bare) := by
  rw [bare, bareItems_eq]

theorem bare_object (fields : List (Name × Literal)) :
    (object fields).bare = .object (fields.map bareField) := by
  rw [bare, bareFields_eq]

end Literal

namespace TypeNode

def bare : TypeNode → TypeNode
  | .named name => .named name.bare
  | .list item => .list (bare item)
  | .nonNull inner => .nonNull (bare inner)

end TypeNode

def Argument.bare (argument : Argument) : Argument :=
  ⟨argument.name.bare, argument.value.bare, Span.empty 0, Location.start⟩

def Directive.bare (directive : Directive) : Directive :=
  ⟨directive.name.bare, directive.arguments.map Argument.bare, Span.empty 0, Location.start⟩

/-! ## Selections and definitions -/

def FieldHead.bare (head : FieldHead) : FieldHead :=
  ⟨head.label.map Name.bare, head.name.bare, head.arguments.map Argument.bare,
    head.directives.map Directive.bare, Span.empty 0, Location.start⟩

def FragmentSpread.bare (node : FragmentSpread) : FragmentSpread :=
  ⟨node.name.bare, node.directives.map Directive.bare, Span.empty 0, Location.start⟩

def InlineHead.bare (head : InlineHead) : InlineHead :=
  ⟨head.typeCondition.map Name.bare, head.directives.map Directive.bare, Span.empty 0,
    Location.start⟩

namespace Selection

mutual
def bare : Selection → Selection
  | .leaf head => .leaf head.bare
  | .branch head selections _ => .branch head.bare (bareAll selections) (Span.empty 0)
  | .spread node => .spread node.bare
  | .inline head selections _ => .inline head.bare (bareAll selections) (Span.empty 0)

def bareAll : List Selection → List Selection
  | [] => []
  | selection :: rest => bare selection :: bareAll rest
end

@[simp] theorem bareAll_eq (selections : List Selection) :
    bareAll selections = selections.map bare := by
  induction selections with
  | nil => rfl
  | cons selection rest induction => rw [bareAll, induction, List.map_cons]

theorem bare_branch (head : FieldHead) (selections : List Selection) (braces : Span) :
    (branch head selections braces).bare =
      branch head.bare (selections.map bare) (Span.empty 0) := by
  rw [bare, bareAll_eq]

theorem bare_inline (head : InlineHead) (selections : List Selection) (braces : Span) :
    (Selection.inline head selections braces).bare =
      .inline head.bare (selections.map bare) (Span.empty 0) := by
  rw [bare, bareAll_eq]

end Selection

def SelectionSet.bare (set : SelectionSet) : SelectionSet :=
  ⟨set.selections.map Selection.bare, Span.empty 0⟩

def VariableDefinition.bare (definition : VariableDefinition) : VariableDefinition :=
  ⟨definition.name.bare, definition.type.bare, definition.default.map Literal.bare,
    Span.empty 0, Location.start⟩

def OperationDefinition.bare (definition : OperationDefinition) : OperationDefinition :=
  ⟨definition.kind, definition.name.map Name.bare,
    definition.variableDefinitions.map VariableDefinition.bare,
    definition.directives.map Directive.bare, definition.selectionSet.bare, Span.empty 0,
    Location.start⟩

def FragmentDefinition.bare (definition : FragmentDefinition) : FragmentDefinition :=
  ⟨definition.name.bare, definition.typeCondition.bare,
    definition.directives.map Directive.bare, definition.selectionSet.bare, Span.empty 0,
    Location.start⟩

def Definition.bare : Definition → Definition
  | .operation definition => .operation definition.bare
  | .fragment definition => .fragment definition.bare

def Document.bare (document : Document) : Document :=
  ⟨document.definitions.map Definition.bare, Span.empty 0⟩

/-! ## Nesting

List and object values, list types and selection sets each add a level to what
they hold. -/

def deepest {α : Type} (nesting : α → Nat) (items : List α) : Nat :=
  items.foldr (fun item => max (nesting item)) 0

@[simp] theorem deepest_nil {α : Type} (nesting : α → Nat) : deepest nesting [] = 0 := rfl

@[simp] theorem deepest_cons {α : Type} (nesting : α → Nat) (item : α) (rest : List α) :
    deepest nesting (item :: rest) = max (nesting item) (deepest nesting rest) := rfl

namespace Literal

mutual
def nesting : Literal → Nat
  | .list items => nestingItems items + 1
  | .object fields => nestingFields fields + 1
  | _ => 0

def nestingItems : List Literal → Nat
  | [] => 0
  | item :: rest => max (nesting item) (nestingItems rest)

def nestingFields : List (Name × Literal) → Nat
  | [] => 0
  | (_, value) :: rest => max (nesting value) (nestingFields rest)
end

def nestingField (field : Name × Literal) : Nat := field.2.nesting

@[simp] theorem nestingItems_eq (items : List Literal) :
    nestingItems items = deepest nesting items := by
  induction items with
  | nil => rfl
  | cons item rest induction => rw [nestingItems, induction, deepest_cons]

@[simp] theorem nestingFields_eq (fields : List (Name × Literal)) :
    nestingFields fields = deepest nestingField fields := by
  induction fields with
  | nil => rfl
  | cons field rest induction =>
      rcases field with ⟨name, value⟩
      rw [nestingFields, induction, deepest_cons, nestingField]

end Literal

def TypeNode.nesting : TypeNode → Nat
  | .named _ => 0
  | .list item => nesting item + 1
  | .nonNull inner => nesting inner

def Argument.nesting (argument : Argument) : Nat := argument.value.nesting

def Directive.nesting (directive : Directive) : Nat :=
  deepest Argument.nesting directive.arguments

def FieldHead.nesting (head : FieldHead) : Nat :=
  max (deepest Argument.nesting head.arguments) (deepest Directive.nesting head.directives)

def FragmentSpread.nesting (node : FragmentSpread) : Nat :=
  deepest Directive.nesting node.directives

def InlineHead.nesting (head : InlineHead) : Nat := deepest Directive.nesting head.directives

namespace Selection

mutual
def nesting : Selection → Nat
  | .leaf head => head.nesting
  | .branch head selections _ => max head.nesting (nestingAll selections + 1)
  | .spread node => node.nesting
  | .inline head selections _ => max head.nesting (nestingAll selections + 1)

def nestingAll : List Selection → Nat
  | [] => 0
  | selection :: rest => max (nesting selection) (nestingAll rest)
end

@[simp] theorem nestingAll_eq (selections : List Selection) :
    nestingAll selections = deepest nesting selections := by
  induction selections with
  | nil => rfl
  | cons selection rest induction => rw [nestingAll, induction, deepest_cons]

end Selection

def SelectionSet.nesting (set : SelectionSet) : Nat :=
  deepest Selection.nesting set.selections + 1

def VariableDefinition.nesting (definition : VariableDefinition) : Nat :=
  max definition.type.nesting (definition.default.elim 0 Literal.nesting)

def OperationDefinition.nesting (definition : OperationDefinition) : Nat :=
  max (deepest VariableDefinition.nesting definition.variableDefinitions)
    (max (deepest Directive.nesting definition.directives) definition.selectionSet.nesting)

def FragmentDefinition.nesting (definition : FragmentDefinition) : Nat :=
  max (deepest Directive.nesting definition.directives) definition.selectionSet.nesting

def Definition.nesting : Definition → Nat
  | .operation definition => definition.nesting
  | .fragment definition => definition.nesting

def Document.nesting (document : Document) : Nat :=
  deepest Definition.nesting document.definitions

/-! The nesting of a tree has nothing to do with places. -/

theorem deepest_map {α β : Type} {nesting : α → Nat} {measure : β → Nat} {change : β → α}
    (same : ∀ item, nesting (change item) = measure item) (items : List β) :
    deepest nesting (items.map change) = deepest measure items := by
  induction items with
  | nil => rfl
  | cons item rest induction => rw [List.map_cons, deepest_cons, deepest_cons, same, induction]

namespace Literal

mutual
theorem nesting_bare : ∀ literal : Literal, literal.bare.nesting = literal.nesting
  | .reference _ | .int _ | .float _ | .string _ | .boolean _ | .null | .symbol _ => rfl
  | .list items => by rw [bare, nesting, nesting, nestingItems_bareItems items]
  | .object fields => by rw [bare, nesting, nesting, nestingFields_bareFields fields]

theorem nestingItems_bareItems : ∀ items : List Literal,
    nestingItems (bareItems items) = nestingItems items
  | [] => rfl
  | item :: rest => by
      rw [bareItems, nestingItems, nestingItems, nesting_bare item, nestingItems_bareItems rest]

theorem nestingFields_bareFields : ∀ fields : List (Name × Literal),
    nestingFields (bareFields fields) = nestingFields fields
  | [] => rfl
  | (name, value) :: rest => by
      rw [bareFields, nestingFields, nestingFields, nesting_bare value,
        nestingFields_bareFields rest]
end

end Literal

theorem TypeNode.nesting_bare (type : TypeNode) : type.bare.nesting = type.nesting := by
  induction type with
  | named name => rfl
  | list item induction => rw [bare, nesting, nesting, induction]
  | nonNull inner induction => rw [bare, nesting, nesting, induction]

theorem Argument.nesting_bare (argument : Argument) :
    argument.bare.nesting = argument.nesting := argument.value.nesting_bare

theorem Directive.nesting_bare (directive : Directive) :
    directive.bare.nesting = directive.nesting :=
  deepest_map Argument.nesting_bare directive.arguments

theorem deepest_bare_directives (directives : List Directive) :
    deepest Directive.nesting (directives.map Directive.bare) =
      deepest Directive.nesting directives := deepest_map Directive.nesting_bare directives

theorem FieldHead.nesting_bare (head : FieldHead) : head.bare.nesting = head.nesting := by
  simp only [FieldHead.nesting, FieldHead.bare, deepest_bare_directives,
    deepest_map Argument.nesting_bare]

namespace Selection

mutual
theorem nesting_bare : ∀ selection : Selection, selection.bare.nesting = selection.nesting
  | .leaf head => by rw [bare, nesting, nesting, head.nesting_bare]
  | .branch head selections _ => by
      rw [bare, nesting, nesting, head.nesting_bare, nestingAll_bareAll selections]
  | .spread node => by
      rw [bare, nesting, nesting]
      exact deepest_bare_directives node.directives
  | .inline head selections _ => by
      rw [bare, nesting, nesting, nestingAll_bareAll selections]
      exact congrArg (max · _) (deepest_bare_directives head.directives)

theorem nestingAll_bareAll : ∀ selections : List Selection,
    nestingAll (bareAll selections) = nestingAll selections
  | [] => rfl
  | selection :: rest => by
      rw [bareAll, nestingAll, nestingAll, nesting_bare selection, nestingAll_bareAll rest]
end

end Selection

theorem SelectionSet.nesting_bare (set : SelectionSet) : set.bare.nesting = set.nesting :=
  congrArg (· + 1) (deepest_map Selection.nesting_bare set.selections)

theorem VariableDefinition.nesting_bare (definition : VariableDefinition) :
    definition.bare.nesting = definition.nesting := by
  rcases definition with ⟨name, type, default, span, location⟩
  cases default with
  | none => simp [nesting, bare, type.nesting_bare]
  | some value => simp [nesting, bare, type.nesting_bare, value.nesting_bare]

theorem Definition.nesting_bare (definition : Definition) :
    definition.bare.nesting = definition.nesting := by
  cases definition with
  | operation definition =>
      simp only [bare, nesting, OperationDefinition.bare, OperationDefinition.nesting,
        deepest_map VariableDefinition.nesting_bare, deepest_bare_directives,
        SelectionSet.nesting_bare]
  | fragment definition =>
      simp only [bare, nesting, FragmentDefinition.bare, FragmentDefinition.nesting,
        deepest_bare_directives, SelectionSet.nesting_bare]

theorem Document.nesting_bare (document : Document) :
    document.bare.nesting = document.nesting :=
  deepest_map Definition.nesting_bare document.definitions

end GraphQuery
