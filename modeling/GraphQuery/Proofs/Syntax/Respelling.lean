import GraphQuery.Proofs.Syntax.Parts

namespace GraphQuery

/-! Other words for the same tree. The words that write a tree may be exchanged piece by piece:
whatever words the pieces have, the whole of them writes the tree as well. -/

namespace Part

/-! ## Pieces and words -/

/-- These words write the pieces, one after the other. -/
inductive Written : List Part → List Lexeme → Prop
  | nil : Written [] []
  | word (lexeme : Lexeme) {parts : List Part} {words : List Lexeme} (more : Written parts words) :
      Written (.word lexeme :: parts) (lexeme :: words)
  | written (lexeme : Lexeme) {parts : List Part} {words : List Lexeme}
      (more : Written parts words) : Written (.omittable lexeme :: parts) (lexeme :: words)
  | omitted (lexeme : Lexeme) {parts : List Part} {words : List Lexeme}
      (more : Written parts words) : Written (.omittable lexeme :: parts) words
  | atom {value : Literal} {lexeme : Lexeme} {parts : List Part} {words : List Lexeme}
      (written : value.Written true [lexeme]) (more : Written parts words) :
      Written (.atom value :: parts) (lexeme :: words)
  | name (label : Name) {parts : List Part} {words : List Lexeme} (more : Written parts words) :
      Written (.name label :: parts) (.name label.text :: words)
  | node (span : Span) (location : Option Location) {parts others : List Part}
      {inner words : List Lexeme} (inside : Written parts inner) (more : Written others words) :
      Written (.node span location parts :: others) (inner ++ words)

namespace Written

variable {parts others : List Part} {words more : List Lexeme} {lexeme : Lexeme} {label : Name}

theorem append (first : Written parts words) (second : Written others more) :
    Written (parts ++ others) (words ++ more) := by
  induction first with
  | nil => exact second
  | word lexeme _ induction => exact .word lexeme induction
  | written lexeme _ induction => exact .written lexeme induction
  | omitted lexeme _ induction => exact .omitted lexeme induction
  | atom written _ induction => exact .atom written induction
  | name label _ induction => exact .name label induction
  | node span location inside _ _ induction =>
      rw [List.append_assoc]
      exact .node span location inside induction

theorem split (whole : Written (parts ++ others) words) : ∃ first second,
    words = first ++ second ∧ Written parts first ∧ Written others second := by
  induction parts generalizing words with
  | nil => exact ⟨[], words, rfl, .nil, whole⟩
  | cons part parts induction =>
      cases whole with
      | word lexeme more =>
          rcases induction more with ⟨first, second, rfl, front, back⟩
          exact ⟨lexeme :: first, second, rfl, .word lexeme front, back⟩
      | written lexeme more =>
          rcases induction more with ⟨first, second, rfl, front, back⟩
          exact ⟨lexeme :: first, second, rfl, .written lexeme front, back⟩
      | omitted lexeme more =>
          rcases induction more with ⟨first, second, rfl, front, back⟩
          exact ⟨first, second, rfl, .omitted lexeme front, back⟩
      | @atom value lexeme _ _ written more =>
          rcases induction more with ⟨first, second, rfl, front, back⟩
          exact ⟨lexeme :: first, second, rfl, .atom written front, back⟩
      | name label more =>
          rcases induction more with ⟨first, second, rfl, front, back⟩
          exact ⟨.name label.text :: first, second, rfl, .name label front, back⟩
      | @node span location _ _ inner _ inside more =>
          rcases induction more with ⟨first, second, rfl, front, back⟩
          exact ⟨inner ++ first, second, (List.append_assoc _ _ _).symm,
            .node span location inside front, back⟩

theorem eq_nil (whole : Written [] words) : words = [] := by
  cases whole
  rfl

theorem word_cons (whole : Written (.word lexeme :: parts) words) :
    ∃ rest, words = lexeme :: rest ∧ Written parts rest := by
  cases whole with
  | word lexeme more => exact ⟨_, rfl, more⟩

theorem mark_cons {kind : Token.Kind} (whole : Written (.mark kind :: parts) words) :
    ∃ rest, words = .mark kind :: rest ∧ Written parts rest := whole.word_cons

theorem keyword_cons {text : String} (whole : Written (.keyword text :: parts) words) :
    ∃ rest, words = .name text :: rest ∧ Written parts rest := whole.word_cons

theorem name_cons (whole : Written (.name label :: parts) words) :
    ∃ rest, words = .name label.text :: rest ∧ Written parts rest := by
  cases whole with
  | name label more => exact ⟨_, rfl, more⟩

theorem atom_alone {value : Literal} (whole : Written [.atom value] words) :
    ∃ lexeme, words = [lexeme] ∧ value.Written true [lexeme] := by
  cases whole with
  | atom written more =>
      cases more
      exact ⟨_, rfl, written⟩

theorem node_alone {span : Span} {location : Option Location}
    (whole : Written [.node span location parts] words) : Written parts words := by
  cases whole with
  | node _ _ inside more =>
      cases more
      rwa [List.append_nil]

theorem enclosed {opening closing : Token.Kind}
    (whole : Written (Part.enclosed opening closing parts) words) :
    ∃ inner, words = .mark opening :: (inner ++ [.mark closing]) ∧ Written parts inner := by
  rcases whole.mark_cons with ⟨rest, rfl, opened⟩
  rcases opened.split with ⟨inner, last, rfl, inside, ending⟩
  rcases ending.mark_cons with ⟨none, rfl, done⟩
  rw [done.eq_nil]
  exact ⟨inner, rfl, inside⟩

end Written

end Part

theorem Fills.lexemes_written {parts : List Part} {tokens : List Token} {next : Token}
    (fills : Fills parts tokens next) : Part.Written parts (tokens.map Token.lexeme) := by
  induction fills with
  | nil => exact .nil
  | word _ induction => exact .word _ induction
  | written _ induction => exact .written _ induction
  | omitted lexeme _ induction => exact .omitted lexeme induction
  | atom written _ induction => exact .atom written induction
  | @name token _ _ _ isName _ induction =>
      rw [List.map_cons, Token.lexeme_eq_name.mpr ⟨isName, rfl⟩]
      exact .name _ induction
  | node _ _ _ within induction =>
      rw [List.map_append]
      exact .node _ _ within induction

/-! ## Literals and types -/

theorem Literal.written_of_single {constant : Bool} {value : Literal} {lexeme : Lexeme}
    (written : value.Written true [lexeme]) : value.Written constant [lexeme] := by
  generalize single : [lexeme] = words at written
  cases written with
  | reference label free => cases single
  | int text => exact .int text
  | float text => exact .float text
  | string text => exact .string text
  | blockString text => exact .blockString text
  | true => exact .true
  | false => exact .false
  | null => exact .null
  | symbol label other => exact .symbol label other
  | list | object => simp [Lexeme.brackets, Lexeme.braces] at single

namespace Literal

variable {constant : Bool}

mutual
theorem respell : ∀ (literal : Literal) {words others : List Lexeme},
    literal.bare.Written constant words → Part.Written literal.parts others →
    literal.bare.Written constant others
  | .reference name, words, others, written, pieces => by
      rcases Part.Written.mark_cons pieces with ⟨rest, rfl, named⟩
      rcases named.name_cons with ⟨rest, rfl, done⟩
      rw [done.eq_nil]
      cases written with
      | reference label free => exact .reference _ free
  | .int _, _, _, _, pieces | .float _, _, _, _, pieces | .string _, _, _, _, pieces
  | .boolean _, _, _, _, pieces | .null, _, _, _, pieces | .symbol _, _, _, _, pieces => by
      rcases Part.Written.atom_alone pieces with ⟨lexeme, rfl, written⟩
      exact written_of_single written
  | .list items, words, others, written, pieces => by
      rcases Part.Written.enclosed pieces with ⟨inner, rfl, inside⟩
      cases written with
      | list written => exact .list (respellItems items written inside)
  | .object fields, words, others, written, pieces => by
      rcases Part.Written.enclosed pieces with ⟨inner, rfl, inside⟩
      cases written with
      | object written => exact .object (respellFields fields written inside)

theorem respellItems : ∀ (items : List Literal) {words others : List Lexeme},
    Sequence (Written constant) (bareItems items) words →
    Part.Written (partsOfItems items) others →
    Sequence (Written constant) (bareItems items) others
  | [], words, others, written, pieces => by
      rw [pieces.eq_nil]
      exact .nil
  | item :: rest, words, others, written, pieces => by
      rcases Part.Written.split pieces with ⟨first, second, rfl, front, back⟩
      cases written with
      | cons written more => exact .cons (respell item written front) (respellItems rest more back)

theorem respellFields : ∀ (fields : List (Name × Literal)) {words others : List Lexeme},
    Sequence (FieldWritten (Written constant)) (bareFields fields) words →
    Part.Written (partsOfFields fields) others →
    Sequence (FieldWritten (Written constant)) (bareFields fields) others
  | [], words, others, written, pieces => by
      rw [pieces.eq_nil]
      exact .nil
  | (name, value) :: rest, words, others, written, pieces => by
      rcases Part.Written.name_cons pieces with ⟨others, rfl, named⟩
      rcases named.mark_cons with ⟨others, rfl, joined⟩
      rcases joined.split with ⟨first, second, rfl, front, back⟩
      cases written with
      | cons written more =>
          cases written with
          | intro key written =>
              exact .cons (.intro name.text (respell value written front))
                (respellFields rest more back)
end

end Literal

theorem TypeNode.respell (type : TypeNode) {words others : List Lexeme}
    (written : type.bare.Written words) (pieces : Part.Written type.parts others) :
    type.bare.Written others := by
  induction type generalizing words others with
  | named name =>
      rcases Part.Written.name_cons pieces with ⟨rest, rfl, done⟩
      rw [done.eq_nil]
      exact .named name.text
  | list item induction =>
      rcases Part.Written.enclosed pieces with ⟨inner, rfl, inside⟩
      cases written with
      | list written => exact .list (induction written inside)
  | nonNull inner induction =>
      rcases Part.Written.split pieces with ⟨first, last, rfl, inside, ending⟩
      rcases ending.mark_cons with ⟨rest, rfl, done⟩
      rw [done.eq_nil]
      cases written with
      | nonNull once written => exact .nonNull once (induction written inside)

/-! ## Sequences -/

section Sequences

variable {α : Type}

/-- What one choice of words writes, every other choice for its pieces does. -/
def Phrase.Respells (phrase : Phrase α) (parts : α → List Part) : Prop :=
  ∀ ⦃tree : α⦄ ⦃words others : List Lexeme⦄, phrase.Written (phrase.bare tree) words →
    Part.Written (parts tree) others → phrase.Written (phrase.bare tree) others

variable {phrase : Phrase α} {part : α → Part}

theorem Phrase.Respells.sequence (respells : phrase.Respells fun item => [part item])
    {items : List α} {words others : List Lexeme}
    (written : Sequence phrase.Written (items.map phrase.bare) words)
    (pieces : Part.Written (items.map part) others) :
    Sequence phrase.Written (items.map phrase.bare) others := by
  induction items generalizing words others with
  | nil =>
      rw [pieces.eq_nil]
      exact .nil
  | cons item items induction =>
      have both : Part.Written ([part item] ++ items.map part) others := pieces
      rcases both.split with ⟨first, second, rfl, front, back⟩
      cases written with
      | cons written more => exact .cons (respells written front) (induction more back)

theorem Phrase.Respells.parenthesized (respells : phrase.Respells fun item => [part item])
    {items : List α} {words others : List Lexeme}
    (written : Parenthesized phrase.Written (items.map phrase.bare) words)
    (pieces : Part.Written (Part.parenthesized (items.map part)) others) :
    Parenthesized phrase.Written (items.map phrase.bare) others := by
  cases items with
  | nil =>
      rw [Part.Written.eq_nil pieces]
      exact .none
  | cons item items =>
      rcases Part.Written.enclosed pieces with ⟨inner, rfl, inside⟩
      cases written with
      | some occupied written => exact .some occupied (respells.sequence written inside)

end Sequences

/-! ## Arguments and selections -/

theorem respells_argument : Phrase.argument.Respells fun argument => [argument.part] := by
  intro argument words others written pieces
  rcases pieces.node_alone.name_cons with ⟨rest, rfl, named⟩
  rcases named.mark_cons with ⟨rest, rfl, value⟩
  replace written : argument.bare.Written words := written
  cases written with
  | intro key written => exact .intro argument.name.text (argument.value.respell written value)

theorem respells_directive : Phrase.directive.Respells fun directive => [directive.part] := by
  intro directive words others written pieces
  rcases pieces.node_alone.mark_cons with ⟨rest, rfl, marked⟩
  rcases marked.name_cons with ⟨rest, rfl, values⟩
  replace written : directive.bare.Written words := written
  cases written with
  | intro label written =>
      exact .intro directive.name.text (respells_argument.parenthesized written values)

theorem Part.Written.labelled {label : Option Name} {key : Name} {words : List Lexeme}
    (pieces : Part.Written (Part.labelled label key) words) :
    words = Lexeme.labelled (label.map Name.text) key.text := by
  cases label with
  | none =>
      rcases pieces.name_cons with ⟨rest, rfl, done⟩
      rw [done.eq_nil]
      rfl
  | some label =>
      rcases pieces.name_cons with ⟨rest, rfl, named⟩
      rcases named.mark_cons with ⟨rest, rfl, marked⟩
      rcases marked.name_cons with ⟨rest, rfl, done⟩
      rw [done.eq_nil]
      rfl

theorem Part.Written.typeCondition {condition : Option Name} {words : List Lexeme}
    (pieces : Part.Written (Part.typeCondition condition) words) :
    words = Lexeme.typeCondition (condition.map Name.text) := by
  cases condition with
  | none => exact pieces.eq_nil
  | some condition =>
      rcases pieces.keyword_cons with ⟨rest, rfl, named⟩
      rcases named.name_cons with ⟨rest, rfl, done⟩
      rw [done.eq_nil]
      rfl

theorem map_plain_text (name : Option Name) :
    (name.map Name.text).map Name.plain = name.map Name.bare := by
  cases name <;> rfl

theorem FieldHead.Written.members {tree : FieldHead} {words : List Lexeme}
    (written : tree.Written words) :
    (∃ inner, Parenthesized Argument.Written tree.arguments inner) ∧
      ∃ inner, Sequence Directive.Written tree.directives inner := by
  cases written with
  | intro label key values marks => exact ⟨⟨_, values⟩, ⟨_, marks⟩⟩

theorem InlineHead.Written.marks {tree : InlineHead} {words : List Lexeme}
    (written : tree.Written words) : ∃ inner, Sequence Directive.Written tree.directives inner := by
  cases written with
  | intro condition marks => exact ⟨_, marks⟩

theorem respells_fieldHead : Phrase.fieldHead.Respells FieldHead.parts := by
  intro head words others written pieces
  rcases pieces.split with ⟨front, rest, rfl, labels, more⟩
  rcases more.split with ⟨values, marks, rfl, atValues, atMarks⟩
  rcases FieldHead.Written.members written with ⟨⟨_, arguments⟩, _, directives⟩
  have again := FieldHead.Written.intro (head.label.map Name.text) head.name.text
    (respells_argument.parenthesized arguments atValues)
    (respells_directive.sequence directives atMarks)
  rw [map_plain_text] at again
  rw [labels.labelled]
  exact again

theorem FragmentSpread.respell {node : FragmentSpread} {words others : List Lexeme}
    (written : node.bare.Written words) (pieces : Part.Written node.parts others) :
    ∃ rest, others = .mark .spread :: rest ∧ node.bare.Written rest := by
  rcases pieces.mark_cons with ⟨rest, rfl, dotted⟩
  rcases dotted.name_cons with ⟨rest, rfl, marks⟩
  cases written with
  | intro label free written =>
      exact ⟨_, rfl, .intro _ free (respells_directive.sequence written marks)⟩

theorem InlineHead.respell {head : InlineHead} {words others : List Lexeme}
    (written : head.bare.Written words) (pieces : Part.Written head.parts others) :
    ∃ rest, others = .mark .spread :: rest ∧ head.bare.Written rest := by
  rcases pieces.mark_cons with ⟨rest, rfl, dotted⟩
  rcases dotted.split with ⟨front, back, rfl, condition, marks⟩
  rcases written.marks with ⟨_, directives⟩
  have again := InlineHead.Written.intro (head.typeCondition.map Name.text)
    (respells_directive.sequence directives marks)
  rw [map_plain_text] at again
  rw [condition.typeCondition]
  exact ⟨_, rfl, again⟩

namespace Selection

mutual
theorem respell : ∀ (selection : Selection) {words others : List Lexeme},
    selection.bare.Written words → Part.Written [selection.part] others →
    selection.bare.Written others
  | .leaf head, words, others, written, pieces => by
      cases written with
      | leaf written => exact .leaf (respells_fieldHead written pieces.node_alone)
  | .branch head selections braces, words, others, written, pieces => by
      rcases pieces.node_alone.split with ⟨first, second, rfl, front, back⟩
      rcases back.node_alone.enclosed with ⟨inner, rfl, inside⟩
      cases written with
      | branch written occupied more =>
          exact .branch (respells_fieldHead written front) occupied
            (respellAll selections more inside)
  | .spread node, words, others, written, pieces => by
      cases written with
      | spread written =>
          rcases FragmentSpread.respell written pieces.node_alone with ⟨rest, rfl, again⟩
          exact .spread again
  | .inline head selections braces, words, others, written, pieces => by
      rcases pieces.node_alone.split with ⟨first, second, rfl, front, back⟩
      rcases back.node_alone.enclosed with ⟨inner, rfl, inside⟩
      cases written with
      | inline written occupied more =>
          rcases InlineHead.respell written front with ⟨rest, rfl, again⟩
          exact .inline again occupied (respellAll selections more inside)

theorem respellAll : ∀ (selections : List Selection) {words others : List Lexeme},
    Sequence Written (bareAll selections) words → Part.Written (partsAmong selections) others →
    Sequence Written (bareAll selections) others
  | [], words, others, written, pieces => by
      rw [pieces.eq_nil]
      exact .nil
  | selection :: rest, words, others, written, pieces => by
      have both : Part.Written ([part selection] ++ partsAmong rest) others := pieces
      rcases both.split with ⟨first, second, rfl, front, back⟩
      cases written with
      | cons written more =>
          exact .cons (respell selection written front) (respellAll rest more back)
end

end Selection

theorem respells_selectionSet : Phrase.selectionSet.Respells fun set => [set.part] := by
  intro set words others written pieces
  rcases pieces.node_alone.enclosed with ⟨inner, rfl, inside⟩
  replace written : set.bare.Written words := written
  cases written with
  | intro occupied more =>
      have respells : Phrase.selection.Respells fun selection => [selection.part] :=
        fun selection _ _ => selection.respell
      exact .intro occupied (respells.sequence more inside)

/-! ## Definitions -/

theorem respells_variableDefinition :
    Phrase.variableDefinition.Respells fun definition => [definition.part] := by
  intro definition words others written pieces
  rcases pieces.node_alone.mark_cons with ⟨rest, rfl, marked⟩
  rcases marked.name_cons with ⟨rest, rfl, named⟩
  rcases named.mark_cons with ⟨rest, rfl, typed⟩
  rcases typed.split with ⟨front, back, rfl, atType, atDefault⟩
  rcases definition with ⟨name, type, default, span, location⟩
  cases default with
  | none =>
      rw [Part.Written.eq_nil atDefault, List.append_nil]
      cases written with
      | required label written => exact .required name.text (type.respell written atType)
  | some value =>
      rcases Part.Written.mark_cons atDefault with ⟨rest, rfl, atValue⟩
      cases written with
      | defaulted label written given =>
          exact .defaulted name.text (type.respell written atType) (value.respell given atValue)

theorem OperationDefinition.Written.members {tree : OperationDefinition} {words : List Lexeme}
    (written : tree.Written words) :
    (∃ inner, Parenthesized VariableDefinition.Written tree.variableDefinitions inner) ∧
      (∃ inner, Sequence Directive.Written tree.directives inner) ∧
        ∃ inner, tree.selectionSet.Written inner := by
  cases written with
  | shorthand written => exact ⟨⟨_, .none⟩, ⟨_, .nil⟩, _, written⟩
  | full kind label bindings marks written => exact ⟨⟨_, bindings⟩, ⟨_, marks⟩, _, written⟩

theorem Part.Written.names {name : Option Name} {words : List Lexeme}
    (pieces : Part.Written (name.toList.map Part.name) words) :
    words = (name.map Name.text).toList.map Lexeme.name := by
  cases name with
  | none => exact pieces.eq_nil
  | some name =>
      rcases Part.Written.name_cons pieces with ⟨rest, rfl, done⟩
      rw [done.eq_nil]
      rfl

theorem Part.Written.operation_cons {definition : OperationDefinition} {parts : List Part}
    {words : List Lexeme} (pieces : Part.Written (definition.keyword :: parts) words) :
    (∃ rest, words = .name definition.kind.keyword :: rest ∧ Part.Written parts rest) ∨
      definition.isPlain = true ∧ Part.Written parts words := by
  rw [OperationDefinition.keyword] at pieces
  split at pieces
  next plain =>
    cases pieces with
    | written lexeme more => exact .inl ⟨_, rfl, more⟩
    | omitted lexeme more => exact .inr ⟨plain, more⟩
  next => exact .inl pieces.keyword_cons

theorem respells_operation : Phrase.operation.Respells fun definition => [definition.part] := by
  intro definition words others written pieces
  rcases OperationDefinition.Written.members written with ⟨⟨_, declared⟩, ⟨_, marked⟩, _, braced⟩
  rcases pieces.node_alone.operation_cons with ⟨rest, rfl, more⟩ | ⟨plain, more⟩
  · rcases more.split with ⟨front, rest, rfl, label, named⟩
    rcases named.split with ⟨bindings, rest, rfl, atBindings, bound⟩
    rcases bound.split with ⟨marks, set, rfl, atMarks, atSet⟩
    have again := OperationDefinition.Written.full definition.kind (definition.name.map Name.text)
      (respells_variableDefinition.parenthesized declared atBindings)
      (respells_directive.sequence marked atMarks) (respells_selectionSet braced atSet)
    rw [map_plain_text] at again
    rw [label.names]
    exact again
  · rcases definition with ⟨kind, name, definitions, directives, set, span, location⟩
    simp only [OperationDefinition.isPlain, Bool.and_eq_true, beq_iff_eq, Option.isNone_iff_eq_none,
      List.isEmpty_iff] at plain
    obtain ⟨⟨⟨rfl, rfl⟩, rfl⟩, rfl⟩ := plain
    exact .shorthand (respells_selectionSet braced more)

theorem respells_fragment : Phrase.fragment.Respells fun definition => [definition.part] := by
  intro definition words others written pieces
  rcases pieces.node_alone.keyword_cons with ⟨rest, rfl, begun⟩
  rcases begun.name_cons with ⟨rest, rfl, named⟩
  rcases named.keyword_cons with ⟨rest, rfl, conditional⟩
  rcases conditional.name_cons with ⟨rest, rfl, more⟩
  rcases more.split with ⟨marks, set, rfl, atMarks, atSet⟩
  replace written : definition.bare.Written words := written
  cases written with
  | intro label condition free marked braced =>
      exact .intro definition.name.text definition.typeCondition.text free
        (respells_directive.sequence marked atMarks) (respells_selectionSet braced atSet)

theorem respells_definition : Phrase.definition.Respells fun definition => [definition.part] := by
  intro definition words others written pieces
  cases definition with
  | operation definition =>
      cases written with
      | operation written => exact .operation (respells_operation written pieces)
  | fragment definition =>
      cases written with
      | fragment written => exact .fragment (respells_fragment written pieces)

/-- Whatever words are chosen for the pieces of a document write it. -/
theorem Document.respell {document : Document} {words others : List Lexeme}
    (written : document.bare.Written words) (pieces : Part.Written [document.part] others) :
    document.bare.Written others := by
  cases written with
  | intro written => exact .intro (respells_definition.sequence written pieces.node_alone)

end GraphQuery
