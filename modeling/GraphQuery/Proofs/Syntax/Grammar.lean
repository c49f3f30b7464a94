import GraphQuery.Proofs.Syntax.Bare
import GraphQuery.Proofs.Syntax.Lexemes

namespace GraphQuery

/-! The grammar of documents: which lexemes write which bare tree. No rule looks
at how deeply anything is nested or at whether a lexeme stands for a value. -/

namespace Lexeme

def braces (words : List Lexeme) : List Lexeme :=
  .mark .braceOpen :: (words ++ [.mark .braceClose])

def brackets (words : List Lexeme) : List Lexeme :=
  .mark .bracketOpen :: (words ++ [.mark .bracketClose])

def parentheses (words : List Lexeme) : List Lexeme :=
  .mark .parenOpen :: (words ++ [.mark .parenClose])

theorem braces_append (words others : List Lexeme) :
    braces words ++ others = .mark .braceOpen :: (words ++ .mark .braceClose :: others) := by
  simp [braces]

theorem brackets_append (words others : List Lexeme) :
    brackets words ++ others =
      .mark .bracketOpen :: (words ++ .mark .bracketClose :: others) := by
  simp [brackets]

theorem parentheses_append (words others : List Lexeme) :
    parentheses words ++ others =
      .mark .parenOpen :: (words ++ .mark .parenClose :: others) := by
  simp [parentheses]

@[simp] theorem readable_mark (kind : Token.Kind) : (mark kind).Readable := trivial

@[simp] theorem readable_name (text : String) : (name text).Readable := trivial

variable {words : List Lexeme}

@[simp] theorem readable_braces :
    (∀ word ∈ braces words, word.Readable) ↔ ∀ word ∈ words, word.Readable := by
  simp [braces, or_imp, forall_and]

@[simp] theorem readable_brackets :
    (∀ word ∈ brackets words, word.Readable) ↔ ∀ word ∈ words, word.Readable := by
  simp [brackets, or_imp, forall_and]

@[simp] theorem readable_parentheses :
    (∀ word ∈ parentheses words, word.Readable) ↔ ∀ word ∈ words, word.Readable := by
  simp [parentheses, or_imp, forall_and]

end Lexeme

/-! ## Sequences -/

section Sequences

variable {α : Type}

inductive Sequence (item : α → List Lexeme → Prop) : List α → List Lexeme → Prop
  | nil : Sequence item [] []
  | cons {first : α} {others : List α} {words rest : List Lexeme}
      (written : item first words) (more : Sequence item others rest) :
      Sequence item (first :: others) (words ++ rest)

inductive Parenthesized (item : α → List Lexeme → Prop) : List α → List Lexeme → Prop
  | none : Parenthesized item [] []
  | some {items : List α} {words : List Lexeme} (occupied : items ≠ [])
      (written : Sequence item items words) :
      Parenthesized item items (Lexeme.parentheses words)

end Sequences

/-! ## Literals -/

/-- The value of a quoted string; that of a text which cannot be unescaped does
not matter. -/
def Literal.stringOfText (text : String) : String :=
  String.ofList ((StringLiteral.unescape (Parser.between 1 text)).getD [])

def Literal.blockOfText (text : String) : String :=
  String.ofList (StringLiteral.blockValue (Parser.between 3 text))

inductive Literal.FieldWritten (value : Literal → List Lexeme → Prop) :
    Name × Literal → List Lexeme → Prop
  | intro (key : String) {held : Literal} {words : List Lexeme} (written : value held words) :
      FieldWritten value (Name.plain key, held) (.name key :: .mark .colon :: words)

/-- A constant holds no variables. -/
inductive Literal.Written (constant : Bool) : Literal → List Lexeme → Prop
  | reference (label : String) (free : constant = false) :
      Written constant (.reference (Name.plain label)) [.mark .dollar, .name label]
  | int (text : String) : Written constant (.int (Parser.intOfText text.toList)) [.int text]
  | float (text : String) :
      Written constant (.float (Parser.floatOfText text.toList)) [.float text]
  | string (text : String) : Written constant (.string (stringOfText text)) [.string text]
  | blockString (text : String) :
      Written constant (.string (blockOfText text)) [.blockString text]
  | true : Written constant (.boolean true) [.name "true"]
  | false : Written constant (.boolean false) [.name "false"]
  | null : Written constant .null [.name "null"]
  | symbol (label : String)
      (other : label ≠ "true" ∧ label ≠ "false" ∧ label ≠ "null") :
      Written constant (.symbol label) [.name label]
  | list {items : List Literal} {words : List Lexeme}
      (written : Sequence (Written constant) items words) :
      Written constant (.list items) (Lexeme.brackets words)
  | object {fields : List (Name × Literal)} {words : List Lexeme}
      (written : Sequence (FieldWritten (Written constant)) fields words) :
      Written constant (.object fields) (Lexeme.braces words)

/-! ## Types, arguments and directives -/

/-- No level of a type refuses null twice. -/
inductive TypeNode.Written : TypeNode → List Lexeme → Prop
  | named (label : String) : Written (.named (Name.plain label)) [.name label]
  | list {item : TypeNode} {words : List Lexeme} (written : Written item words) :
      Written (.list item) (Lexeme.brackets words)
  | nonNull {inner : TypeNode} {words : List Lexeme} (once : inner.isNonNull = false)
      (written : Written inner words) :
      Written (.nonNull inner) (words ++ [.mark .bang])

inductive Argument.Written : Argument → List Lexeme → Prop
  | intro (key : String) {value : Literal} {words : List Lexeme}
      (written : value.Written false words) :
      Written ⟨Name.plain key, value, Span.empty 0, Location.start⟩
        (.name key :: .mark .colon :: words)

inductive Directive.Written : Directive → List Lexeme → Prop
  | intro (label : String) {arguments : List Argument} {words : List Lexeme}
      (written : Parenthesized Argument.Written arguments words) :
      Written ⟨Name.plain label, arguments, Span.empty 0, Location.start⟩
        (.mark .atSign :: .name label :: words)

/-! ## Selections -/

def Lexeme.labelled : Option String → String → List Lexeme
  | none, key => [.name key]
  | some label, key => [.name label, .mark .colon, .name key]

theorem Lexeme.readable_labelled (label : Option String) (key : String) :
    ∀ word ∈ labelled label key, word.Readable := by
  cases label <;> simp [labelled]

inductive FieldHead.Written : FieldHead → List Lexeme → Prop
  | intro (label : Option String) (key : String) {arguments : List Argument}
      {directives : List Directive} {words rest : List Lexeme}
      (values : Parenthesized Argument.Written arguments words)
      (marks : Sequence Directive.Written directives rest) :
      Written
        ⟨label.map Name.plain, Name.plain key, arguments, directives, Span.empty 0,
          Location.start⟩
        (Lexeme.labelled label key ++ (words ++ rest))

/-- What follows the three dots of a spread. The name `on` begins a type
condition. -/
inductive FragmentSpread.Written : FragmentSpread → List Lexeme → Prop
  | intro (label : String) {directives : List Directive} {words : List Lexeme}
      (free : label ≠ "on") (marks : Sequence Directive.Written directives words) :
      Written ⟨Name.plain label, directives, Span.empty 0, Location.start⟩
        (.name label :: words)

def Lexeme.typeCondition : Option String → List Lexeme
  | none => []
  | some condition => [.name "on", .name condition]

theorem Lexeme.readable_typeCondition (condition : Option String) :
    ∀ word ∈ typeCondition condition, word.Readable := by
  cases condition <;> simp [typeCondition]

/-- What stands between the three dots and the braces of an inline fragment. -/
inductive InlineHead.Written : InlineHead → List Lexeme → Prop
  | intro (condition : Option String) {directives : List Directive} {words : List Lexeme}
      (marks : Sequence Directive.Written directives words) :
      Written ⟨condition.map Name.plain, directives, Span.empty 0, Location.start⟩
        (Lexeme.typeCondition condition ++ words)

inductive Selection.Written : Selection → List Lexeme → Prop
  | leaf {head : FieldHead} {words : List Lexeme} (written : head.Written words) :
      Written (.leaf head) words
  | branch {head : FieldHead} {selections : List Selection} {words inner : List Lexeme}
      (written : head.Written words) (occupied : selections ≠ [])
      (more : Sequence Written selections inner) :
      Written (.branch head selections (Span.empty 0)) (words ++ Lexeme.braces inner)
  | spread {node : FragmentSpread} {words : List Lexeme} (written : node.Written words) :
      Written (.spread node) (.mark .spread :: words)
  | inline {head : InlineHead} {selections : List Selection} {words inner : List Lexeme}
      (written : head.Written words) (occupied : selections ≠ [])
      (more : Sequence Written selections inner) :
      Written (.inline head selections (Span.empty 0))
        (.mark .spread :: (words ++ Lexeme.braces inner))

inductive SelectionSet.Written : SelectionSet → List Lexeme → Prop
  | intro {selections : List Selection} {words : List Lexeme} (occupied : selections ≠ [])
      (more : Sequence Selection.Written selections words) :
      Written ⟨selections, Span.empty 0⟩ (Lexeme.braces words)

theorem SelectionSet.Written.selections {set : SelectionSet} {words : List Lexeme}
    (written : set.Written words) :
    ∃ inner, words = Lexeme.braces inner ∧ set.selections ≠ [] ∧
      Sequence Selection.Written set.selections inner := by
  cases written with
  | intro occupied more => exact ⟨_, rfl, occupied, more⟩

/-! ## Definitions -/

inductive VariableDefinition.Written : VariableDefinition → List Lexeme → Prop
  | required (label : String) {type : TypeNode} {words : List Lexeme}
      (written : type.Written words) :
      Written ⟨Name.plain label, type, none, Span.empty 0, Location.start⟩
        (.mark .dollar :: .name label :: .mark .colon :: words)
  | defaulted (label : String) {type : TypeNode} {default : Literal}
      {words rest : List Lexeme} (written : type.Written words)
      (value : default.Written true rest) :
      Written ⟨Name.plain label, type, some default, Span.empty 0, Location.start⟩
        (.mark .dollar :: .name label :: .mark .colon :: (words ++ .mark .equals :: rest))

theorem OperationKind.ofKeyword?_eq_some {text : String} {kind : OperationKind} :
    ofKeyword? text = some kind ↔ text = kind.keyword := by
  constructor
  · intro found
    unfold ofKeyword? at found
    split at found <;> cases found <;> rfl
  · rintro rfl
    cases kind <;> rfl

inductive OperationDefinition.Written : OperationDefinition → List Lexeme → Prop
  | shorthand {set : SelectionSet} {words : List Lexeme} (written : set.Written words) :
      Written ⟨.query, none, [], [], set, Span.empty 0, Location.start⟩ words
  | full (kind : OperationKind) (label : Option String)
      {definitions : List VariableDefinition} {directives : List Directive}
      {set : SelectionSet} {declared marked braced : List Lexeme}
      (bindings : Parenthesized VariableDefinition.Written definitions declared)
      (marks : Sequence Directive.Written directives marked) (written : set.Written braced) :
      Written
        ⟨kind, label.map Name.plain, definitions, directives, set, Span.empty 0,
          Location.start⟩
        (.name kind.keyword :: (label.toList.map .name ++ (declared ++ (marked ++ braced))))

inductive FragmentDefinition.Written : FragmentDefinition → List Lexeme → Prop
  | intro (label condition : String) {directives : List Directive} {set : SelectionSet}
      {words rest : List Lexeme} (free : label ≠ "on")
      (marks : Sequence Directive.Written directives words) (written : set.Written rest) :
      Written
        ⟨Name.plain label, Name.plain condition, directives, set, Span.empty 0,
          Location.start⟩
        (.name "fragment" :: .name label :: .name "on" :: .name condition :: (words ++ rest))

inductive Definition.Written : Definition → List Lexeme → Prop
  | operation {definition : OperationDefinition} {words : List Lexeme}
      (written : definition.Written words) : Written (.operation definition) words
  | fragment {definition : FragmentDefinition} {words : List Lexeme}
      (written : definition.Written words) : Written (.fragment definition) words

inductive Document.Written : Document → List Lexeme → Prop
  | intro {definitions : List Definition} {words : List Lexeme}
      (written : Sequence Definition.Written definitions words) :
      Written ⟨definitions, Span.empty 0⟩ words

/-! ## Phrases

What a parser reads is a kind of tree, the lexemes that write it and its
nesting. Some marks would be read as a part of a phrase if they followed it. -/

structure Phrase (α : Type) where
  bare : α → α
  Written : α → List Lexeme → Prop
  nesting : α → Nat
  extensions : List Token.Kind

namespace Phrase

variable {α : Type}

/-- A tree that is written by readable lexemes and nested no deeper than allowed. -/
structure Fits (phrase : Phrase α) (levels : Nat) (tree : α) (words : List Lexeme) : Prop where
  written : phrase.Written tree words
  readable : ∀ word ∈ words, word.Readable
  shallow : phrase.nesting tree ≤ levels

def sequence (phrase : Phrase α) (extensions : List Token.Kind) : Phrase (List α) where
  bare := List.map phrase.bare
  Written := Sequence phrase.Written
  nesting := deepest phrase.nesting
  extensions := extensions

namespace Fits

variable {phrase : Phrase α} {extensions : List Token.Kind} {levels : Nat}

theorem nil : (phrase.sequence extensions).Fits levels [] [] :=
  ⟨.nil, nofun, Nat.zero_le levels⟩

theorem cons {first : α} {others : List α} {words rest : List Lexeme}
    (fits : phrase.Fits levels first words)
    (more : (phrase.sequence extensions).Fits levels others rest) :
    (phrase.sequence extensions).Fits levels (first :: others) (words ++ rest) :=
  ⟨.cons fits.written more.written, List.forall_mem_append.mpr ⟨fits.readable, more.readable⟩,
    Nat.max_le.mpr ⟨fits.shallow, more.shallow⟩⟩

theorem uncons {first : α} {others : List α} {words : List Lexeme}
    (fits : (phrase.sequence extensions).Fits levels (first :: others) words) :
    ∃ taken more, words = taken ++ more ∧ phrase.Fits levels first taken ∧
      (phrase.sequence extensions).Fits levels others more := by
  rcases fits with ⟨written, readable, shallow⟩
  rcases Nat.max_le.mp shallow with ⟨shallowFirst, shallowMore⟩
  cases written with
  | cons written more =>
      rcases List.forall_mem_append.mp readable with ⟨readableFirst, readableMore⟩
      exact ⟨_, _, rfl, ⟨written, readableFirst, shallowFirst⟩,
        ⟨more, readableMore, shallowMore⟩⟩

end Fits

def parenthesized (phrase : Phrase α) : Phrase (List α) where
  bare := List.map phrase.bare
  Written := Parenthesized phrase.Written
  nesting := deepest phrase.nesting
  extensions := [.parenOpen]

theorem Fits.enclosed {phrase : Phrase α} {levels : Nat} {items : List α}
    {words : List Lexeme} (fits : (phrase.sequence []).Fits levels items words)
    (occupied : items ≠ []) :
    phrase.parenthesized.Fits levels items (Lexeme.parentheses words) :=
  ⟨.some occupied fits.written, Lexeme.readable_parentheses.mpr fits.readable, fits.shallow⟩

def literal (constant : Bool) : Phrase Literal :=
  ⟨Literal.bare, Literal.Written constant, Literal.nesting, []⟩

def literalField (constant : Bool) : Phrase (Name × Literal) :=
  ⟨Literal.bareField, Literal.FieldWritten (Literal.Written constant), Literal.nestingField, []⟩

section Literals

variable {constant : Bool} {levels : Nat} {words : List Lexeme}

theorem Fits.list {items : List Literal}
    (fits : ((literal constant).sequence []).Fits levels items words) :
    (literal constant).Fits (levels + 1) (.list items) (Lexeme.brackets words) := by
  have shallow : deepest Literal.nesting items ≤ levels := fits.shallow
  refine ⟨.list fits.written, Lexeme.readable_brackets.mpr fits.readable, ?_⟩
  simpa [literal, Literal.nesting] using shallow

theorem Fits.object {fields : List (Name × Literal)}
    (fits : ((literalField constant).sequence []).Fits levels fields words) :
    (literal constant).Fits (levels + 1) (.object fields) (Lexeme.braces words) := by
  have shallow : deepest Literal.nestingField fields ≤ levels := fits.shallow
  refine ⟨.object fits.written, Lexeme.readable_braces.mpr fits.readable, ?_⟩
  simpa [literal, Literal.nesting] using shallow

end Literals

def typeNode : Phrase TypeNode :=
  ⟨TypeNode.bare, TypeNode.Written, TypeNode.nesting, [.bang]⟩

section Types

variable {levels : Nat} {type : TypeNode} {words : List Lexeme}

theorem Fits.listType (fits : typeNode.Fits levels type words) :
    typeNode.Fits (levels + 1) (.list type) (Lexeme.brackets words) :=
  ⟨.list fits.written, Lexeme.readable_brackets.mpr fits.readable,
    Nat.succ_le_succ fits.shallow⟩

theorem Fits.nonNullType (fits : typeNode.Fits levels type words)
    (nullable : type.isNonNull = false) :
    typeNode.Fits levels (.nonNull type) (words ++ [.mark .bang]) :=
  ⟨.nonNull nullable fits.written, by simpa [or_imp, forall_and] using fits.readable,
    fits.shallow⟩

end Types

def argument : Phrase Argument := ⟨Argument.bare, Argument.Written, Argument.nesting, []⟩

def directive : Phrase Directive :=
  ⟨Directive.bare, Directive.Written, Directive.nesting, [.parenOpen]⟩

def directives : Phrase (List Directive) := directive.sequence [.parenOpen, .atSign]

def fieldHead : Phrase FieldHead :=
  ⟨FieldHead.bare, FieldHead.Written, FieldHead.nesting, [.colon, .parenOpen, .atSign]⟩

def inlineHead : Phrase InlineHead :=
  ⟨InlineHead.bare, InlineHead.Written, InlineHead.nesting, [.parenOpen, .atSign]⟩

def selection : Phrase Selection :=
  ⟨Selection.bare, Selection.Written, Selection.nesting,
    [.colon, .parenOpen, .atSign, .braceOpen]⟩

def selectionSet : Phrase SelectionSet :=
  ⟨SelectionSet.bare, SelectionSet.Written, SelectionSet.nesting, []⟩

section Selections

variable {levels : Nat} {set : SelectionSet} {words inner : List Lexeme}

theorem Fits.selectionSet {selections : List Selection}
    (fits : (selection.sequence []).Fits levels selections inner) (occupied : selections ≠ []) :
    Phrase.selectionSet.Fits (levels + 1) ⟨selections, Span.empty 0⟩ (Lexeme.braces inner) :=
  ⟨.intro occupied fits.written, Lexeme.readable_braces.mpr fits.readable,
    Nat.succ_le_succ fits.shallow⟩

theorem Fits.leaf {head : FieldHead} (fits : fieldHead.Fits levels head.bare words) :
    selection.Fits levels (Selection.bare (.leaf head)) words :=
  ⟨.leaf fits.written, fits.readable, fits.shallow⟩

theorem Fits.branch {head : FieldHead} (fits : fieldHead.Fits levels head.bare words)
    (more : Phrase.selectionSet.Fits levels set.bare inner) :
    selection.Fits levels (Selection.bare (.branch head set.selections set.span))
      (words ++ inner) := by
  rcases SelectionSet.Written.selections more.written with ⟨inner, rfl, occupied, written⟩
  have deep : head.bare.nesting ≤ levels ∧ set.bare.nesting ≤ levels :=
    ⟨fits.shallow, more.shallow⟩
  rw [Selection.bare_branch]
  refine ⟨.branch fits.written occupied written,
    List.forall_mem_append.mpr ⟨fits.readable, more.readable⟩, ?_⟩
  simp only [selection, Selection.nesting, Selection.nestingAll_eq]
  exact Nat.max_le.mpr deep

theorem Fits.inline {head : InlineHead} (fits : inlineHead.Fits levels head.bare words)
    (more : Phrase.selectionSet.Fits levels set.bare inner) :
    selection.Fits levels (Selection.bare (.inline head set.selections set.span))
      (.mark .spread :: (words ++ inner)) := by
  rcases SelectionSet.Written.selections more.written with ⟨inner, rfl, occupied, written⟩
  have deep : head.bare.nesting ≤ levels ∧ set.bare.nesting ≤ levels :=
    ⟨fits.shallow, more.shallow⟩
  rw [Selection.bare_inline]
  refine ⟨.inline fits.written occupied written, List.forall_mem_cons.mpr
    ⟨trivial, List.forall_mem_append.mpr ⟨fits.readable, more.readable⟩⟩, ?_⟩
  simp only [selection, Selection.nesting, Selection.nestingAll_eq]
  exact Nat.max_le.mpr deep

theorem Fits.spread {node : FragmentSpread} (free : node.name.text ≠ "on")
    (fits : directives.Fits levels (node.directives.map Directive.bare) words) :
    selection.Fits levels (Selection.bare (.spread node))
      (.mark .spread :: .name node.name.text :: words) := by
  refine ⟨.spread (.intro _ free fits.written), ?_, fits.shallow⟩
  simpa using fits.readable

end Selections

def variableDefinition : Phrase VariableDefinition :=
  ⟨VariableDefinition.bare, VariableDefinition.Written, VariableDefinition.nesting,
    [.bang, .equals]⟩

def operation : Phrase OperationDefinition :=
  ⟨OperationDefinition.bare, OperationDefinition.Written, OperationDefinition.nesting, []⟩

def fragment : Phrase FragmentDefinition :=
  ⟨FragmentDefinition.bare, FragmentDefinition.Written, FragmentDefinition.nesting, []⟩

section Definitions

variable {levels : Nat} {set : SelectionSet} {list : List Directive} {marked braced : List Lexeme}

theorem Fits.shorthand (fits : Phrase.selectionSet.Fits levels set braced) :
    operation.Fits levels ⟨.query, none, [], [], set, Span.empty 0, Location.start⟩ braced := by
  have shallow : set.nesting ≤ levels := fits.shallow
  refine ⟨.shorthand fits.written, fits.readable, ?_⟩
  simpa [operation, OperationDefinition.nesting] using shallow

theorem Fits.full (kind : OperationKind) (label : Option String)
    {definitions : List VariableDefinition} {declared : List Lexeme}
    (bindings : variableDefinition.parenthesized.Fits levels definitions declared)
    (marks : directives.Fits levels list marked)
    (fits : Phrase.selectionSet.Fits levels set braced) :
    operation.Fits levels
      ⟨kind, label.map Name.plain, definitions, list, set, Span.empty 0, Location.start⟩
      (.name kind.keyword :: (label.toList.map .name ++ (declared ++ (marked ++ braced)))) := by
  refine ⟨.full kind label bindings.written marks.written fits.written, ?_, ?_⟩
  · have labelled : ∀ word ∈ label.toList.map Lexeme.name, word.Readable := by
      cases label <;> simp
    simp only [List.forall_mem_cons, List.forall_mem_append]
    exact ⟨trivial, labelled, bindings.readable, marks.readable, fits.readable⟩
  · exact Nat.max_le.mpr ⟨bindings.shallow, Nat.max_le.mpr ⟨marks.shallow, fits.shallow⟩⟩

theorem Fits.fragment {label : String} (condition : String) (free : label ≠ "on")
    (marks : directives.Fits levels list marked)
    (fits : Phrase.selectionSet.Fits levels set braced) :
    Phrase.fragment.Fits levels
      ⟨Name.plain label, Name.plain condition, list, set, Span.empty 0, Location.start⟩
      (.name "fragment" :: .name label :: .name "on" :: .name condition ::
        (marked ++ braced)) := by
  refine ⟨.intro label condition free marks.written fits.written, ?_,
    Nat.max_le.mpr ⟨marks.shallow, fits.shallow⟩⟩
  simp only [List.forall_mem_cons, List.forall_mem_append]
  exact ⟨trivial, trivial, trivial, trivial, marks.readable, fits.readable⟩

end Definitions

def definition : Phrase Definition :=
  ⟨Definition.bare, Definition.Written, Definition.nesting, []⟩

end Phrase

end GraphQuery
