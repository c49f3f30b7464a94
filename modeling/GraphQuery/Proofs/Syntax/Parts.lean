import GraphQuery.Proofs.Syntax.Grammar
import GraphQuery.Proofs.Syntax.Layout

namespace GraphQuery

/-! How a tree lies in the tokens that write it: the pieces of every node one after the other,
each over tokens of its own. What is said of spans and locations follows from this alone. -/

/-! ## Pieces of trees -/

/-- A piece of a tree. Some words can be left out; some nodes have a span but no location. -/
inductive Part where
  | word (lexeme : Lexeme)
  | omittable (lexeme : Lexeme)
  | atom (value : Literal)
  | name (name : Name)
  | node (span : Span) (location : Option Location) (parts : List Part)

namespace Part

def isWritten : Part → Bool
  | .omittable _ => false
  | _ => true

def mark (kind : Token.Kind) : Part := .word (.mark kind)

def keyword (text : String) : Part := .word (.name text)

def enclosed (opening closing : Token.Kind) (parts : List Part) : List Part :=
  mark opening :: (parts ++ [mark closing])

def parenthesized : List Part → List Part
  | [] => []
  | part :: parts => enclosed .parenOpen .parenClose (part :: parts)

end Part

namespace Literal

mutual
def parts : Literal → List Part
  | .reference name => [.mark .dollar, .name name]
  | .list items => Part.enclosed .bracketOpen .bracketClose (partsOfItems items)
  | .object fields => Part.enclosed .braceOpen .braceClose (partsOfFields fields)
  | .int value => [.atom (.int value)]
  | .float value => [.atom (.float value)]
  | .string value => [.atom (.string value)]
  | .boolean value => [.atom (.boolean value)]
  | .null => [.atom .null]
  | .symbol name => [.atom (.symbol name)]

def partsOfItems : List Literal → List Part
  | [] => []
  | item :: rest => parts item ++ partsOfItems rest

def partsOfFields : List (Name × Literal) → List Part
  | [] => []
  | (name, value) :: rest => .name name :: .mark .colon :: (parts value ++ partsOfFields rest)
end

def fieldParts (field : Name × Literal) : List Part :=
  .name field.1 :: .mark .colon :: field.2.parts

theorem partsOfItems_eq (items : List Literal) : partsOfItems items = items.flatMap parts := by
  induction items with
  | nil => rfl
  | cons item rest induction => rw [partsOfItems, induction, List.flatMap_cons]

theorem partsOfFields_eq (fields : List (Name × Literal)) :
    partsOfFields fields = fields.flatMap fieldParts := by
  induction fields with
  | nil => rfl
  | cons field rest induction =>
      rcases field with ⟨name, value⟩
      rw [partsOfFields, induction, List.flatMap_cons]
      rfl

end Literal

def TypeNode.parts : TypeNode → List Part
  | .named name => [.name name]
  | .list item => Part.enclosed .bracketOpen .bracketClose (parts item)
  | .nonNull inner => parts inner ++ [.mark .bang]

def Argument.part (argument : Argument) : Part :=
  .node argument.span (some argument.location)
    (.name argument.name :: .mark .colon :: argument.value.parts)

def Directive.part (directive : Directive) : Part :=
  .node directive.span (some directive.location)
    (.mark .atSign :: .name directive.name ::
      Part.parenthesized (directive.arguments.map Argument.part))

/-! ## Selections -/

def Part.labelled : Option Name → Name → List Part
  | none, key => [.name key]
  | some label, key => [.name label, .mark .colon, .name key]

theorem Part.name_mem_labelled (label : Option Name) (key : Name) :
    .name key ∈ labelled label key := by
  cases label <;> simp [labelled]

def FieldHead.parts (head : FieldHead) : List Part :=
  Part.labelled head.label head.name ++
    (Part.parenthesized (head.arguments.map Argument.part) ++ head.directives.map Directive.part)

def FragmentSpread.parts (spread : FragmentSpread) : List Part :=
  .mark .spread :: .name spread.name :: spread.directives.map Directive.part

def Part.typeCondition : Option Name → List Part
  | none => []
  | some condition => [.keyword "on", .name condition]

def InlineHead.parts (head : InlineHead) : List Part :=
  .mark .spread :: (Part.typeCondition head.typeCondition ++ head.directives.map Directive.part)

def Part.braced (braces : Span) (selections : List Part) : Part :=
  .node braces none (enclosed .braceOpen .braceClose selections)

namespace Selection

mutual
def part : Selection → Part
  | .leaf head => .node head.span (some head.location) head.parts
  | .branch head selections braces =>
      .node head.span (some head.location) (head.parts ++ [.braced braces (partsAmong selections)])
  | .spread node => .node node.span (some node.location) node.parts
  | .inline head selections braces =>
      .node head.span (some head.location) (head.parts ++ [.braced braces (partsAmong selections)])

def partsAmong : List Selection → List Part
  | [] => []
  | selection :: rest => part selection :: partsAmong rest
end

theorem partsAmong_eq (selections : List Selection) :
    partsAmong selections = selections.map part := by
  induction selections with
  | nil => rfl
  | cons selection rest induction => rw [partsAmong, induction, List.map_cons]

end Selection

def SelectionSet.part (set : SelectionSet) : Part :=
  .braced set.span (set.selections.map Selection.part)

theorem Selection.part_branch (head : FieldHead) (set : SelectionSet) :
    (branch head set.selections set.span).part =
      .node head.span (some head.location) (head.parts ++ [set.part]) := by
  rw [part, partsAmong_eq]
  rfl

theorem Selection.part_inline (head : InlineHead) (set : SelectionSet) :
    (inline head set.selections set.span).part =
      .node head.span (some head.location) (head.parts ++ [set.part]) := by
  rw [part, partsAmong_eq]
  rfl

/-! ## Definitions -/

def VariableDefinition.defaultParts : Option Literal → List Part
  | none => []
  | some default => .mark .equals :: default.parts

def VariableDefinition.part (definition : VariableDefinition) : Part :=
  .node definition.span (some definition.location)
    (.mark .dollar :: .name definition.name :: .mark .colon ::
      (definition.type.parts ++ defaultParts definition.default))

namespace OperationDefinition

def isPlain (definition : OperationDefinition) : Bool :=
  definition.kind == .query && definition.name.isNone && definition.variableDefinitions.isEmpty &&
    definition.directives.isEmpty

def keyword (definition : OperationDefinition) : Part :=
  if definition.isPlain then .omittable (.name definition.kind.keyword)
  else .keyword definition.kind.keyword

def part (definition : OperationDefinition) : Part :=
  .node definition.span (some definition.location)
    (definition.keyword :: (definition.name.toList.map Part.name ++
      (Part.parenthesized (definition.variableDefinitions.map VariableDefinition.part) ++
        (definition.directives.map Directive.part ++ [definition.selectionSet.part]))))

end OperationDefinition

def FragmentDefinition.part (definition : FragmentDefinition) : Part :=
  .node definition.span (some definition.location)
    (.keyword "fragment" :: .name definition.name :: .keyword "on" ::
      .name definition.typeCondition ::
        (definition.directives.map Directive.part ++ [definition.selectionSet.part]))

def Definition.part : Definition → Part
  | .operation definition => definition.part
  | .fragment definition => definition.part

def Document.part (document : Document) : Part :=
  .node document.span none (document.definitions.map Definition.part)

/-! ## Pieces and tokens -/

/-- The pieces lie over these tokens, one after the other; `next` is the token after them. A
name has the text, the span and the location of a token of its own. A node begins where its
first token does and ends where the token after its last one does. -/
inductive Fills : List Part → List Token → (next : Token) → Prop
  | nil {next : Token} : Fills [] [] next
  | word {token next : Token} {parts : List Part} {tokens : List Token}
      (more : Fills parts tokens next) :
      Fills (.word token.lexeme :: parts) (token :: tokens) next
  | written {token next : Token} {parts : List Part} {tokens : List Token}
      (more : Fills parts tokens next) :
      Fills (.omittable token.lexeme :: parts) (token :: tokens) next
  | omitted (lexeme : Lexeme) {next : Token} {parts : List Part} {tokens : List Token}
      (more : Fills parts tokens next) : Fills (.omittable lexeme :: parts) tokens next
  | atom {value : Literal} {token next : Token} {parts : List Part} {tokens : List Token}
      (written : value.Written true [token.lexeme]) (more : Fills parts tokens next) :
      Fills (.atom value :: parts) (token :: tokens) next
  | name {token next : Token} {parts : List Part} {tokens : List Token}
      (isName : token.kind = .name) (more : Fills parts tokens next) :
      Fills (.name ⟨token.text, token.span, token.location⟩ :: parts) (token :: tokens) next
  | node {first next : Token} {location : Option Location} {parts others : List Part}
      {inner tokens : List Token} (here : ∀ place ∈ location, place = first.location)
      (inside : Fills parts (first :: inner) (tokens.headD next))
      (more : Fills others tokens next) :
      Fills (.node ⟨first.span.start, (tokens.headD next).span.stop⟩ location parts :: others)
        (first :: inner ++ tokens) next

namespace Fills

variable {parts others : List Part} {tokens more : List Token} {next : Token}

theorem headD_append (tokens more : List Token) (next : Token) :
    (tokens ++ more).headD next = tokens.headD (more.headD next) := by
  cases tokens <;> rfl

theorem append (fills : Fills parts tokens (more.headD next)) (rest : Fills others more next) :
    Fills (parts ++ others) (tokens ++ more) next := by
  generalize follows : more.headD next = between at fills
  induction fills with
  | nil => exact rest
  | word _ induction => exact .word (induction follows)
  | written _ induction => exact .written (induction follows)
  | omitted lexeme _ induction => exact .omitted lexeme (induction follows)
  | atom written _ induction => exact .atom written (induction follows)
  | name isName _ induction => exact .name isName (induction follows)
  | node here inside _ _ induction =>
      subst follows
      rw [← headD_append] at inside ⊢
      rw [List.append_assoc]
      exact .node here inside (induction rfl)

end Fills

/-! ## Spans and locations -/

namespace Part

def spans : List Part → List Span
  | [] => []
  | .name label :: rest => label.span :: spans rest
  | .node span _ _ :: rest => span :: spans rest
  | .word _ :: rest | .omittable _ :: rest | .atom _ :: rest => spans rest

mutual
/-- All that has a location, at any depth: its span and its location. -/
def sites : Part → List (Span × Location)
  | .name label => [(label.span, label.location)]
  | .node span location parts =>
      location.toList.map (fun place => (span, place)) ++ sitesAmong parts
  | .word _ | .omittable _ | .atom _ => []

def sitesAmong : List Part → List (Span × Location)
  | [] => []
  | part :: rest => sites part ++ sitesAmong rest
end

mutual
/-- All nodes, at any depth: the span of each and those of its children. -/
def families : Part → List (Span × List Span)
  | .node span _ parts => (span, spans parts) :: familiesAmong parts
  | .name _ | .word _ | .omittable _ | .atom _ => []

def familiesAmong : List Part → List (Span × List Span)
  | [] => []
  | part :: rest => families part ++ familiesAmong rest
end

/-- Children lie within their parent and begin one after the other. -/
structure Nested (family : Span × List Span) : Prop where
  within : ∀ child ∈ family.2, family.1.start ≤ child.start ∧ child.stop ≤ family.1.stop
  rising : family.2.Pairwise fun first second => first.start < second.start

end Part

structure Token.Ordered (tokens : List Token) : Prop where
  forward : ∀ token ∈ tokens, token.span.start ≤ token.span.stop
  apart : tokens.Pairwise fun first second =>
    first.span.start < second.span.start ∧ first.span.stop ≤ second.span.start

theorem Token.ordered_tokenize (text : List Char) : Ordered (tokenize text) := by
  have divides := divides_tokenize text
  refine ⟨?_, divides.rising.and divides.ordered⟩
  intro token member
  rcases divides.covers token member with ⟨front, word, _, _, covered, _⟩
  rw [covered]
  simp [spanning]

namespace Token.Ordered

variable {tokens more : List Token} {first next : Token}

theorem of_sublist (ordered : Ordered tokens) (sublist : more.Sublist tokens) : Ordered more :=
  ⟨fun token member => ordered.forward token (sublist.subset member),
    ordered.apart.sublist sublist⟩

theorem tail (ordered : Ordered (first :: tokens)) : Ordered tokens :=
  ordered.of_sublist (List.sublist_cons_self first tokens)

theorem start_lt (ordered : Ordered (first :: tokens)) :
    ∀ token ∈ tokens, first.span.start < token.span.start :=
  fun _ member => (List.rel_of_pairwise_cons ordered.apart member).1

theorem start_le (ordered : Ordered (first :: tokens)) :
    ∀ token ∈ first :: tokens, first.span.start ≤ token.span.start := by
  rw [List.forall_mem_cons]
  exact ⟨Nat.le_refl _, fun token member => Nat.le_of_lt (ordered.start_lt token member)⟩

theorem stop_le (ordered : Ordered (tokens ++ [next])) :
    ∀ token ∈ tokens ++ [next], token.span.stop ≤ next.span.stop := by
  have last := ordered.forward next (by simp)
  have earlier := (List.pairwise_append.mp ordered.apart).2.2
  rw [List.forall_mem_append, List.forall_mem_singleton]
  refine ⟨fun token member => ?_, Nat.le_refl _⟩
  exact Nat.le_trans (earlier token member next List.mem_cons_self).2 last

theorem headD_mem (tokens : List Token) (next : Token) :
    tokens.headD next ∈ tokens ++ [next] := by
  cases tokens <;> simp

theorem split (ordered : Ordered (tokens ++ more ++ [next])) :
    Ordered (tokens ++ [more.headD next]) ∧ Ordered (more ++ [next]) := by
  rw [List.append_assoc] at ordered
  have follows := List.singleton_sublist.mpr (headD_mem more next)
  exact ⟨ordered.of_sublist (follows.append_left tokens),
    ordered.of_sublist (List.sublist_append_right tokens _)⟩

end Token.Ordered

namespace Fills

open Token GraphQuery.Part

variable {parts : List Part} {tokens : List Token} {next : Token}

/-- Every name and node begins with a token that it lies over, and none reaches beyond the
token that follows them all. -/
theorem spans_within (fills : Fills parts tokens next) (ordered : Ordered (tokens ++ [next])) :
    ∀ span ∈ spans parts, (∃ token ∈ tokens, span.start = token.span.start) ∧
      span.stop ≤ next.span.stop := by
  induction fills with
  | nil => exact nofun
  | omitted _ _ induction => exact induction ordered
  | word _ induction | written _ induction | atom _ _ induction =>
      intro span member
      rcases induction ordered.tail span member with ⟨⟨token, later, same⟩, bound⟩
      exact ⟨⟨token, List.mem_cons_of_mem _ later, same⟩, bound⟩
  | @name token _ _ _ _ _ induction =>
      intro span member
      rcases List.mem_cons.mp member with rfl | member
      · exact ⟨⟨token, List.mem_cons_self, rfl⟩, ordered.stop_le token (by simp)⟩
      · rcases induction ordered.tail span member with ⟨⟨other, later, same⟩, bound⟩
        exact ⟨⟨other, List.mem_cons_of_mem _ later, same⟩, bound⟩
  | @node first next _ _ _ inner tokens _ _ _ _ induction =>
      have after := ordered.split.2
      intro span member
      rcases List.mem_cons.mp member with rfl | member
      · exact ⟨⟨first, List.mem_cons_self, rfl⟩, after.stop_le _ (Ordered.headD_mem tokens next)⟩
      · rcases induction after span member with ⟨⟨token, later, same⟩, bound⟩
        exact ⟨⟨token, List.mem_append_right _ later, same⟩, bound⟩

theorem spans_rising (fills : Fills parts tokens next) (ordered : Ordered (tokens ++ [next])) :
    (spans parts).Pairwise fun first second => first.start < second.start := by
  induction fills with
  | nil => exact .nil
  | omitted _ _ induction => exact induction ordered
  | word _ induction | written _ induction | atom _ _ induction => exact induction ordered.tail
  | name _ more induction =>
      refine List.pairwise_cons.mpr ⟨fun span member => ?_, induction ordered.tail⟩
      rcases (more.spans_within ordered.tail span member).1 with ⟨token, later, same⟩
      rw [same]
      exact ordered.start_lt token (List.mem_append_left _ later)
  | node _ _ more _ induction =>
      have after := ordered.split.2
      refine List.pairwise_cons.mpr ⟨fun span member => ?_, induction after⟩
      rcases (more.spans_within after span member).1 with ⟨token, later, same⟩
      rw [same]
      exact ordered.start_lt token (by simp [later])

theorem nested (fills : Fills parts tokens next) (ordered : Ordered (tokens ++ [next])) :
    ∀ family ∈ familiesAmong parts, Nested family := by
  induction fills with
  | nil => exact nofun
  | omitted _ _ induction => exact induction ordered
  | word _ induction | written _ induction | atom _ _ induction | name _ _ induction =>
      exact induction ordered.tail
  | node _ inside _ within induction =>
      rcases ordered.split with ⟨own, after⟩
      intro family member
      rcases List.mem_append.mp member with member | member
      · rcases List.mem_cons.mp member with rfl | member
        · refine ⟨fun child among => ?_, inside.spans_rising own⟩
          rcases inside.spans_within own child among with ⟨⟨token, later, same⟩, bound⟩
          refine ⟨?_, bound⟩
          rw [same]
          exact own.start_le token (List.mem_append_left _ later)
        · exact within own family member
      · exact induction after family member

theorem sites_from (fills : Fills parts tokens next) :
    ∀ site ∈ sitesAmong parts, ∃ token ∈ tokens,
      site.1.start = token.span.start ∧ site.2 = token.location := by
  induction fills with
  | nil => exact nofun
  | omitted _ _ induction => exact induction
  | word _ induction | written _ induction | atom _ _ induction =>
      intro site member
      rcases induction site member with ⟨token, later, same⟩
      exact ⟨token, List.mem_cons_of_mem _ later, same⟩
  | @name token _ _ _ _ _ induction =>
      intro site member
      rcases List.mem_cons.mp member with rfl | member
      · exact ⟨token, List.mem_cons_self, rfl, rfl⟩
      · rcases induction site member with ⟨other, later, same⟩
        exact ⟨other, List.mem_cons_of_mem _ later, same⟩
  | @node first _ _ _ _ _ _ here _ _ within induction =>
      intro site member
      rcases List.mem_append.mp member with member | member
      · rcases List.mem_append.mp member with member | member
        · rcases List.mem_map.mp member with ⟨place, found, rfl⟩
          exact ⟨first, List.mem_cons_self, rfl, here place (Option.mem_toList.mp found)⟩
        · rcases within site member with ⟨token, among, same⟩
          exact ⟨token, List.mem_append_left _ among, same⟩
      · rcases induction site member with ⟨token, later, same⟩
        exact ⟨token, List.mem_append_right _ later, same⟩

end Fills

end GraphQuery
