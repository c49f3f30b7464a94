import GraphQuery.Proofs.Syntax.Definitions
import GraphQuery.Proofs.Syntax.Parts

/-! Every node of a document that has been read lies over the tokens that write it, which gives
its span and its location. -/

namespace GraphQuery

namespace Fills

theorem not_isWritten {parts : List Part} {next : Token} (fills : Fills parts [] next) :
    ∀ part ∈ parts, part.isWritten = false := by
  generalize none : [] = tokens at fills
  induction fills with
  | nil => exact nofun
  | omitted lexeme more induction => exact List.forall_mem_cons.mpr ⟨rfl, induction none⟩
  | _ => cases none

end Fills

namespace Parser

/-! ## Streams -/

structure Stream.Settled (stream : Stream) : Prop where
  ended : stream.Ended
  ordered : Token.Ordered stream.tokens

theorem Stream.settled_ofText (text : List Char) : (ofText text).Settled :=
  ⟨⟨_, shows_ofText text⟩, tokens_ofText text ▸ Token.ordered_tokenize text⟩

theorem Stream.Ended.tokens_eq {stream : Stream} (ended : stream.Ended)
    (more : stream.current.kind ≠ .endOfInput) :
    stream.tokens = stream.current :: stream.passed.tokens := by
  rcases ended with ⟨words, shows⟩
  cases shows with
  | done ends => exact absurd ends more
  | more => rfl

/-- Between two streams, of which the second is what is left of the first, the pieces lie. -/
structure Takes (stream rest : Stream) (parts : List Part) : Prop where
  settled : rest.Settled
  filled : ∃ tokens, stream.tokens = tokens ++ rest.tokens ∧ Fills parts tokens rest.current

namespace Takes

variable {stream between rest : Stream} {parts others : List Part}

theorem refl (settled : stream.Settled) : Takes stream stream [] :=
  ⟨settled, [], rfl, .nil⟩

theorem append (first : Takes stream between parts) (second : Takes between rest others) :
    Takes stream rest (parts ++ others) := by
  rcases first.filled with ⟨tokens, split, fills⟩
  rcases second.filled with ⟨more, splitMore, fillsMore⟩
  have follows : between.current = more.headD rest.current := by
    cases more with
    | nil => exact (List.cons.inj splitMore).1
    | cons token more => exact (List.cons.inj splitMore).1
  refine ⟨second.settled, tokens ++ more, ?_, (follows ▸ fills).append fillsMore⟩
  rw [split, splitMore, List.append_assoc]

theorem single {part : Part} (settled : stream.Settled) (isPart : stream.current.kind.IsPart)
    (fills : Fills [part] [stream.current] stream.passed.current) :
    Takes stream stream.passed [part] := by
  have split := settled.ended.tokens_eq isPart.1
  refine ⟨⟨settled.ended.skip 1, ?_⟩, [stream.current], split, fills⟩
  have ordered := settled.ordered
  rw [split] at ordered
  exact ordered.tail

theorem mark {kind : Token.Kind} (settled : stream.Settled)
    (punctuator : kind.isPunctuator = true) (here : stream.current.kind = kind) :
    Takes stream stream.passed [.mark kind] := by
  have isPart := here ▸ Token.Kind.isPart_of_punctuator punctuator
  have piece : Fills [.word stream.current.lexeme] [stream.current] stream.passed.current :=
    .word .nil
  rw [(Token.lexeme_eq_mark punctuator).mpr here] at piece
  exact single settled isPart piece

theorem keyword {text : String} (settled : stream.Settled)
    (here : stream.current.kind = .name ∧ stream.current.text = text) :
    Takes stream stream.passed [.keyword text] := by
  have isPart := here.1 ▸ Token.Kind.isPart_name
  have piece : Fills [.word stream.current.lexeme] [stream.current] stream.passed.current :=
    .word .nil
  rw [Token.lexeme_eq_name.mpr here] at piece
  exact single settled isPart piece

theorem name (settled : stream.Settled) (here : stream.current.kind = .name) :
    Takes stream stream.passed
      [.name ⟨stream.current.text, stream.current.span, stream.current.location⟩] :=
  single settled (here ▸ Token.Kind.isPart_name) (.name here .nil)

theorem exists_first (takes : Takes stream rest parts)
    (written : ∃ part ∈ parts, part.isWritten = true) :
    ∃ inner, stream.tokens = stream.current :: inner ++ rest.tokens ∧
      Fills parts (stream.current :: inner) rest.current := by
  rcases takes.filled with ⟨tokens, split, fills⟩
  cases tokens with
  | nil =>
      rcases written with ⟨part, member, isWritten⟩
      rw [fills.not_isWritten part member] at isWritten
      cases isWritten
  | cons first inner =>
      obtain rfl : stream.current = first := (List.cons.inj split).1
      exact ⟨inner, split, fills⟩

theorem length_following (takes : Takes stream rest parts)
    (written : ∃ part ∈ parts, part.isWritten = true) :
    rest.following.length < stream.following.length := by
  rcases takes.exists_first written with ⟨inner, split, _⟩
  have counted := congrArg List.length split
  simp only [Stream.tokens, List.length_cons, List.length_append] at counted
  omega

theorem node (settled : stream.Settled) (takes : Takes stream rest parts)
    (written : ∃ part ∈ parts, part.isWritten = true) (location : Option Location)
    (here : ∀ place ∈ location, place = stream.current.location) :
    Takes stream rest
      [.node ⟨stream.current.span.start, max rest.current.span.stop stream.current.span.start⟩
        location parts] := by
  rcases takes.exists_first written with ⟨inner, split, fills⟩
  have ordered := settled.ordered
  rw [split] at ordered
  have later : rest.current ∈ stream.current :: (inner ++ rest.tokens) := by
    simp [Stream.tokens]
  have forward : stream.current.span.start ≤ rest.current.span.stop :=
    Nat.le_trans (ordered.start_le _ later) (ordered.forward _ later)
  have whole : Fills _ (stream.current :: inner ++ []) rest.current := .node here fills .nil
  rw [List.append_nil] at whole
  rw [Nat.max_eq_left forward]
  exact ⟨takes.settled, stream.current :: inner, split, whole⟩

end Takes

/-! ## Parsers -/

def Lays {α : Type} (parts : α → List Part) (parser : Parser α) : Prop :=
  ∀ ⦃stream rest : Stream⦄ ⦃found : α⦄, stream.Settled → Gives parser stream found rest →
    Takes stream rest (parts found)

section Repetition

variable {α : Type} {parts : α → List Part} {part : α → Part} {item : Parser α}
  {stream rest : Stream} {found : List α}

theorem Lays.repeatedly (lays : Lays parts item) (here : Token → Bool) (bound : Nat) :
    Lays (List.flatMap parts) (repeatedly here item bound) := by
  induction bound with
  | zero =>
      intro stream rest found settled gives
      rcases gives_pure.mp gives with ⟨rfl, rfl⟩
      exact .refl settled
  | succ bound induction =>
      intro stream rest found settled gives
      rw [Parser.repeatedly, gives_current_bind] at gives
      split at gives
      · rcases gives_bind.mp gives with ⟨first, between, head, gives⟩
        rcases gives_bind.mp gives with ⟨others, _, tail, gives⟩
        rcases gives_pure.mp gives with ⟨rfl, rfl⟩
        have step := lays settled head
        exact step.append (induction step.settled tail)
      · rcases gives_pure.mp gives with ⟨rfl, rfl⟩
        exact .refl settled

theorem Lays.many (lays : Lays parts item) (here : Token → Bool) :
    Lays (List.flatMap parts) (many here item) :=
  fun _ _ _ settled gives => lays.repeatedly here _ settled (gives_get_bind.mp gives)

variable {closing : Token.Kind}

theorem Lays.manyUntil (punctuator : closing.isPunctuator = true) (lays : Lays parts item) :
    Lays (fun items => items.flatMap parts ++ [.mark closing]) (manyUntil closing item) := by
  intro stream rest found settled gives
  rcases gives_bind.mp gives with ⟨items, between, read, gives⟩
  rcases gives_expect_bind.mp gives with ⟨closes, gives⟩
  rcases gives_pure.mp gives with ⟨rfl, rfl⟩
  have steps := lays.many _ settled read
  exact steps.append (.mark steps.settled punctuator closes)

theorem Lays.someUntil (punctuator : closing.isPunctuator = true) (lays : Lays parts item)
    (settled : stream.Settled) (gives : Gives (someUntil closing item) stream found rest) :
    Takes stream rest (found.flatMap parts ++ [.mark closing]) ∧ found ≠ [] := by
  rcases gives_bind.mp gives with ⟨first, between, head, gives⟩
  rcases gives_bind.mp gives with ⟨others, _, tail, gives⟩
  rcases gives_pure.mp gives with ⟨rfl, rfl⟩
  have step := lays settled head
  have steps := step.append (lays.manyUntil punctuator step.settled tail)
  rw [← List.append_assoc] at steps
  exact ⟨steps, nofun⟩

end Repetition

/-! ## Literals -/

theorem bare_keywordLiteral (text : String) :
    (keywordLiteral text).bare = keywordLiteral text := by
  unfold keywordLiteral
  split <;> rfl

theorem parts_keywordLiteral (text : String) :
    (keywordLiteral text).parts = [.atom (keywordLiteral text)] := by
  unfold keywordLiteral
  split <;> rfl

theorem lays_objectField {value : Parser Literal} (lays : Lays Literal.parts value) :
    Lays Literal.fieldParts (objectField value) := by
  intro stream rest found settled gives
  rcases gives_name_bind.mp gives with ⟨atName, gives⟩
  have key := Takes.name settled atName
  rcases gives_expect_bind.mp gives with ⟨atColon, gives⟩
  have colon := key.append (.mark key.settled rfl atColon)
  rcases gives_bind.mp gives with ⟨held, between, read, gives⟩
  rcases gives_pure.mp gives with ⟨rfl, rfl⟩
  exact colon.append (lays colon.settled read)

theorem Takes.atom {stream : Stream} {value : Literal} (settled : stream.Settled)
    (isPart : stream.current.kind.IsPart) (written : value.Written true [stream.current.lexeme]) :
    Takes stream stream.passed [.atom value] :=
  single settled isPart (.atom written .nil)

theorem lays_literalWith {constant : Bool} {inner? : Option (Parser Literal)}
    (lays : ∀ inner ∈ inner?, Lays Literal.parts inner) :
    Lays Literal.parts (literalWith constant inner?) := by
  intro stream rest found settled gives
  unfold literalWith at gives
  rw [gives_current_bind] at gives
  split at gives
  next atDollar =>
    split at gives
    · exact absurd gives not_gives_expected
    · rw [gives_advance_bind] at gives
      have dollar := Takes.mark settled rfl atDollar
      rcases gives_name_bind.mp gives with ⟨atName, gives⟩
      rcases gives_pure.mp gives with ⟨rfl, rfl⟩
      exact dollar.append (.name dollar.settled atName)
  next atInt =>
    simp only at gives
    split at gives
    · rcases gives_pure.mp gives with ⟨rfl, rfl⟩
      have lexeme : stream.current.lexeme = .int stream.current.text := by
        simp [Token.lexeme, atInt]
      exact .atom settled (by rw [atInt]; exact ⟨by decide, by decide⟩) (lexeme ▸ .int _)
    · exact absurd gives not_gives_fail
  next atFloat =>
    rcases gives_pure.mp gives with ⟨rfl, rfl⟩
    have lexeme : stream.current.lexeme = .float stream.current.text := by
      simp [Token.lexeme, atFloat]
    exact .atom settled (by rw [atFloat]; exact ⟨by decide, by decide⟩) (lexeme ▸ .float _)
  next atString =>
    split at gives
    next value unescaped =>
      rcases gives_pure.mp gives with ⟨rfl, rfl⟩
      have lexeme : stream.current.lexeme = .string stream.current.text := by
        simp [Token.lexeme, atString]
      have written : Literal.Written true _ _ := .string stream.current.text
      rw [Literal.stringOfText, unescaped, Option.getD_some] at written
      exact .atom settled (by rw [atString]; exact ⟨by decide, by decide⟩) (lexeme ▸ written)
    · exact absurd gives not_gives_fail
  next atBlock =>
    rcases gives_pure.mp gives with ⟨rfl, rfl⟩
    have lexeme : stream.current.lexeme = .blockString stream.current.text := by
      simp [Token.lexeme, atBlock]
    exact .atom settled (by rw [atBlock]; exact ⟨by decide, by decide⟩) (lexeme ▸ .blockString _)
  next atBracket =>
    rw [gives_advance_bind] at gives
    have bracket := Takes.mark settled rfl atBracket
    split at gives
    next inner =>
      rcases gives_bind.mp gives with ⟨items, between, read, gives⟩
      rcases gives_pure.mp gives with ⟨rfl, rfl⟩
      rw [Literal.parts, Literal.partsOfItems_eq]
      exact bracket.append ((lays inner rfl).manyUntil rfl bracket.settled read)
    · exact absurd gives not_gives_fail
  next atBrace =>
    rw [gives_advance_bind] at gives
    have brace := Takes.mark settled rfl atBrace
    split at gives
    next inner =>
      rcases gives_bind.mp gives with ⟨fields, between, read, gives⟩
      rcases gives_pure.mp gives with ⟨rfl, rfl⟩
      have laysField := lays_objectField (lays inner rfl)
      rw [Literal.parts, Literal.partsOfFields_eq]
      exact brace.append (laysField.manyUntil rfl brace.settled read)
    · exact absurd gives not_gives_fail
  next atName =>
    rcases gives_pure.mp gives with ⟨rfl, rfl⟩
    have lexeme : stream.current.lexeme = .name stream.current.text := by
      simp [Token.lexeme, atName]
    have written := keywordLiteral_written true stream.current.text
    rw [bare_keywordLiteral, ← lexeme] at written
    rw [parts_keywordLiteral]
    exact .atom settled (atName ▸ Token.Kind.isPart_name) written
  · exact absurd gives not_gives_expected

theorem lays_literal (constant : Bool) (levels : Nat) :
    Lays Literal.parts (literal constant levels) := by
  induction levels with
  | zero => exact lays_literalWith nofun
  | succ levels induction =>
      apply lays_literalWith
      rintro _ ⟨⟩
      exact induction

/-! ## Types, arguments and directives -/

theorem lays_nullableType {inner? : Option (Parser TypeNode)}
    (lays : ∀ inner ∈ inner?, Lays TypeNode.parts inner) :
    Lays TypeNode.parts (nullableType inner?) := by
  intro stream rest found settled gives
  rcases gives_accept_bind.mp gives with ⟨atBracket, gives⟩ | ⟨_, gives⟩
  · have bracket := Takes.mark settled rfl atBracket
    cases inner? with
    | none => exact absurd gives not_gives_fail
    | some inner =>
        rcases gives_bind.mp gives with ⟨item, between, read, gives⟩
        have items := bracket.append (lays inner rfl bracket.settled read)
        rcases gives_expect_bind.mp gives with ⟨closes, gives⟩
        rcases gives_pure.mp gives with ⟨rfl, rfl⟩
        have whole := items.append (.mark items.settled rfl closes)
        rwa [List.append_assoc] at whole
  · rcases gives_name_bind.mp gives with ⟨atName, gives⟩
    rcases gives_pure.mp gives with ⟨rfl, rfl⟩
    exact .name settled atName

theorem lays_typeNodeWith {inner? : Option (Parser TypeNode)}
    (lays : ∀ inner ∈ inner?, Lays TypeNode.parts inner) :
    Lays TypeNode.parts (typeNodeWith inner?) := by
  intro stream rest found settled gives
  rcases gives_bind.mp gives with ⟨type, between, read, gives⟩
  have nullable := lays_nullableType lays settled read
  rcases gives_accept_bind.mp gives with ⟨atBang, gives⟩ | ⟨_, gives⟩
  · rcases gives_pure.mp gives with ⟨rfl, rfl⟩
    exact nullable.append (.mark nullable.settled rfl atBang)
  · rcases gives_pure.mp gives with ⟨rfl, rfl⟩
    exact nullable

theorem lays_typeNode (levels : Nat) : Lays TypeNode.parts (typeNode levels) := by
  induction levels with
  | zero => exact lays_typeNodeWith nofun
  | succ levels induction =>
      apply lays_typeNodeWith
      rintro _ ⟨⟩
      exact induction

theorem lays_argument (levels : Nat) : Lays (fun found => [found.part]) (argument levels) := by
  intro stream rest found settled gives
  rw [argument, gives_current_bind] at gives
  rcases gives_name_bind.mp gives with ⟨atName, gives⟩
  have key := Takes.name settled atName
  rcases gives_expect_bind.mp gives with ⟨atColon, gives⟩
  have colon := key.append (.mark key.settled rfl atColon)
  rcases gives_bind.mp gives with ⟨value, between, read, gives⟩
  have whole := colon.append (lays_literal false levels colon.settled read)
  rw [gives_spanFrom_bind] at gives
  rcases gives_pure.mp gives with ⟨rfl, rfl⟩
  exact whole.node settled ⟨_, List.mem_cons_self, rfl⟩ _ (by simp)

theorem Lays.parenthesized {α : Type} {part : α → Part} {item : Parser α}
    {parser : Parser (List α)} (lays : Lays (fun found => [part found]) item)
    (same : parser = accept .parenOpen >>= fun opens =>
      if opens then Parser.someUntil .parenClose item else pure []) :
    Lays (fun found => Part.parenthesized (found.map part)) parser := by
  intro stream rest found settled gives
  subst same
  rcases gives_accept_bind.mp gives with ⟨opens, gives⟩ | ⟨_, gives⟩
  · have opening := Takes.mark settled rfl opens
    rw [if_pos rfl] at gives
    rcases lays.someUntil rfl opening.settled gives with ⟨takes, occupied⟩
    cases found with
    | nil => exact absurd rfl occupied
    | cons first others =>
        rw [← List.map_eq_flatMap] at takes
        exact opening.append takes
  · rcases gives_pure.mp gives with ⟨rfl, rfl⟩
    exact .refl settled

theorem lays_arguments (levels : Nat) :
    Lays (fun found => Part.parenthesized (found.map Argument.part)) (arguments levels) :=
  (lays_argument levels).parenthesized rfl

theorem lays_directive (levels : Nat) : Lays (fun found => [found.part]) (directive levels) := by
  intro stream rest found settled gives
  rw [directive, gives_current_bind] at gives
  rcases gives_expect_bind.mp gives with ⟨atSign, gives⟩
  have sign := Takes.mark settled rfl atSign
  rcases gives_name_bind.mp gives with ⟨atName, gives⟩
  have label := sign.append (.name sign.settled atName)
  rcases gives_bind.mp gives with ⟨values, between, read, gives⟩
  have whole := label.append (lays_arguments levels label.settled read)
  rw [gives_spanFrom_bind] at gives
  rcases gives_pure.mp gives with ⟨rfl, rfl⟩
  exact whole.node settled ⟨_, List.mem_cons_self, rfl⟩ _ (by simp)

theorem lays_directives (levels : Nat) :
    Lays (fun found => found.map Directive.part) (directives levels) := by
  intro stream rest found settled gives
  have takes := (lays_directive levels).many _ settled gives
  rwa [← List.map_eq_flatMap] at takes

/-! ## Selections -/

theorem lays_fieldNames : Lays (fun found => Part.labelled found.1 found.2) fieldNames := by
  intro stream rest found settled gives
  rcases gives_name_bind.mp gives with ⟨atName, gives⟩
  have first := Takes.name settled atName
  rcases gives_accept_bind.mp gives with ⟨atColon, gives⟩ | ⟨_, gives⟩
  · have colon := first.append (.mark first.settled rfl atColon)
    rcases gives_name_bind.mp gives with ⟨atName, gives⟩
    rcases gives_pure.mp gives with ⟨rfl, rfl⟩
    exact colon.append (.name colon.settled atName)
  · rcases gives_pure.mp gives with ⟨rfl, rfl⟩
    exact first

section Selections

variable {levels : Nat} {set : Parser SelectionSet}

theorem Lays.fieldSelection (inner : Lays (fun found => [found.part]) set) :
    Lays (fun found => [found.part]) (fieldSelection levels set) := by
  intro stream rest found settled gives
  rw [Parser.fieldSelection, gives_current_bind] at gives
  rcases gives_bind.mp gives with ⟨names, _, named, gives⟩
  rcases gives_bind.mp gives with ⟨values, _, given, gives⟩
  rcases gives_bind.mp gives with ⟨marks, _, marked, gives⟩
  rcases gives_bind.mp gives with ⟨set?, _, followed, ends⟩
  have head := lays_fieldNames settled named
  have values := lays_arguments levels head.settled given
  have marks := head.append (values.append (lays_directives levels values.settled marked))
  rw [gives_spanFrom_bind] at ends
  rcases gives_ifAt.mp followed with ⟨_, set, read, rfl⟩ | ⟨_, rfl, rfl⟩
  · rcases gives_pure.mp ends with ⟨rfl, rfl⟩
    beta_reduce
    rw [Selection.part_branch]
    have whole := marks.append (inner marks.settled read)
    exact whole.node settled
      ⟨.name names.2, by simp [Part.name_mem_labelled], rfl⟩ _ (by simp)
  · rcases gives_pure.mp ends with ⟨rfl, rfl⟩
    exact marks.node settled ⟨.name names.2, by simp [Part.name_mem_labelled], rfl⟩ _ (by simp)

theorem Lays.inlineFragment (inner : Lays (fun found => [found.part]) set)
    {first stream rest : Stream} {condition : Option Name} {found : Selection}
    (settled : first.Settled)
    (before : Takes first stream (.mark .spread :: Part.typeCondition condition))
    (gives : Gives (inlineFragment levels set first.current condition) stream found rest) :
    Takes first rest [found.part] := by
  rcases gives_bind.mp gives with ⟨marks, _, marked, gives⟩
  rcases gives_bind.mp gives with ⟨body, _, read, gives⟩
  rw [gives_spanFrom_bind] at gives
  rcases gives_pure.mp gives with ⟨rfl, rfl⟩
  have marks := before.append (lays_directives levels before.settled marked)
  have whole := marks.append (inner marks.settled read)
  rw [Selection.part_inline]
  exact whole.node settled ⟨_, List.mem_cons_self, rfl⟩ _ (by simp)

theorem Lays.fragmentSelection (inner : Lays (fun found => [found.part]) set)
    {first stream rest : Stream} {found : Selection} (settled : first.Settled)
    (dots : Takes first stream [.mark .spread])
    (gives : Gives (fragmentSelection levels set first.current) stream found rest) :
    Takes first rest [found.part] := by
  rw [Parser.fragmentSelection, gives_isAtKeyword_bind] at gives
  split at gives
  next atKeyword =>
    rw [Bool.and_eq_true, beq_iff_eq, beq_iff_eq] at atKeyword
    rw [gives_advance_bind] at gives
    rcases gives_name_bind.mp gives with ⟨atName, gives⟩
    have keyword := dots.append (.keyword dots.settled atKeyword)
    have condition := keyword.append (.name keyword.settled atName)
    exact inner.inlineFragment settled condition gives
  next =>
    rw [gives_isAt_bind, gives_isAt_bind] at gives
    split at gives
    · exact inner.inlineFragment settled dots gives
    · rcases gives_name_bind.mp gives with ⟨atName, gives⟩
      rcases gives_bind.mp gives with ⟨marks, _, marked, gives⟩
      rw [gives_spanFrom_bind] at gives
      rcases gives_pure.mp gives with ⟨rfl, rfl⟩
      have label := dots.append (.name dots.settled atName)
      have whole := label.append (lays_directives levels label.settled marked)
      exact whole.node settled ⟨_, List.mem_cons_self, rfl⟩ _ (by simp)

theorem Lays.selection (inner : Lays (fun found => [found.part]) set) :
    Lays (fun found => [found.part]) (selection levels set) := by
  intro stream rest found settled gives
  rw [Parser.selection, gives_current_bind] at gives
  rcases gives_accept_bind.mp gives with ⟨atDots, gives⟩ | ⟨_, gives⟩
  · exact inner.fragmentSelection settled (.mark settled rfl atDots) gives
  · exact inner.fieldSelection settled gives

theorem lays_selectionSet (levels : Nat) :
    Lays (fun found => [found.part]) (selectionSet levels) := by
  induction levels with
  | zero =>
      intro stream rest found settled gives
      rcases gives_expect_bind.mp gives with ⟨_, gives⟩
      exact absurd gives not_gives_fail
  | succ levels induction =>
      intro stream rest found settled gives
      rw [selectionSet, gives_current_bind] at gives
      rcases gives_expect_bind.mp gives with ⟨atBrace, gives⟩
      rcases gives_bind.mp gives with ⟨selections, _, read, gives⟩
      rw [gives_spanFrom_bind] at gives
      rcases gives_pure.mp gives with ⟨rfl, rfl⟩
      have brace := Takes.mark settled rfl atBrace
      have body := (induction.selection.someUntil rfl brace.settled read).1
      rw [← List.map_eq_flatMap] at body
      exact (brace.append body).node settled ⟨_, List.mem_cons_self, rfl⟩ _ (by simp)

end Selections

/-! ## Definitions -/

theorem lays_variableDefinition (levels : Nat) :
    Lays (fun found => [found.part]) (variableDefinition levels) := by
  intro stream rest found settled gives
  rw [variableDefinition, gives_current_bind] at gives
  rcases gives_expect_bind.mp gives with ⟨atDollar, gives⟩
  have dollar := Takes.mark settled rfl atDollar
  rcases gives_name_bind.mp gives with ⟨atName, gives⟩
  have label := dollar.append (.name dollar.settled atName)
  rcases gives_expect_bind.mp gives with ⟨atColon, gives⟩
  have colon := label.append (.mark label.settled rfl atColon)
  rcases gives_bind.mp gives with ⟨type, _, typed, gives⟩
  rcases gives_bind.mp gives with ⟨default, _, defaulted, gives⟩
  have type := lays_typeNode levels colon.settled typed
  rw [gives_spanFrom_bind] at gives
  rcases gives_pure.mp gives with ⟨rfl, rfl⟩
  rcases gives_ifAfter.mp defaulted with ⟨atEquals, value, read, rfl⟩ | ⟨_, rfl, rfl⟩
  · have equals := Takes.mark type.settled rfl atEquals
    have default := equals.append (lays_literal true levels equals.settled read)
    have whole := colon.append (type.append default)
    exact whole.node settled ⟨_, List.mem_cons_self, rfl⟩ _ (by simp)
  · have whole := colon.append (type.append (.refl type.settled))
    exact whole.node settled ⟨_, List.mem_cons_self, rfl⟩ _ (by simp)

theorem lays_variableDefinitions (levels : Nat) :
    Lays (fun found => Part.parenthesized (found.map VariableDefinition.part))
      (variableDefinitions levels) :=
  (lays_variableDefinition levels).parenthesized rfl

theorem Takes.omitted {stream rest : Stream} {parts : List Part} (lexeme : Lexeme)
    (takes : Takes stream rest parts) : Takes stream rest (.omittable lexeme :: parts) := by
  rcases takes.filled with ⟨tokens, split, fills⟩
  exact ⟨takes.settled, tokens, split, .omitted lexeme fills⟩

theorem lays_shorthandQuery (levels : Nat) :
    Lays (fun found => [found.part]) (shorthandQuery levels) := by
  intro stream rest found settled gives
  rw [shorthandQuery, gives_current_bind] at gives
  rcases gives_bind.mp gives with ⟨set, _, read, gives⟩
  rw [gives_spanFrom_bind] at gives
  rcases gives_pure.mp gives with ⟨rfl, rfl⟩
  have whole := (lays_selectionSet levels settled read).omitted (.name "query")
  exact whole.node settled ⟨set.part, by simp, rfl⟩ _ (by simp)

theorem Takes.operationKeyword {stream : Stream} {definition : OperationDefinition}
    (settled : stream.Settled)
    (here : stream.current.kind = .name ∧ stream.current.text = definition.kind.keyword) :
    Takes stream stream.passed [definition.keyword] := by
  unfold OperationDefinition.keyword
  split
  · have piece : Fills [.omittable stream.current.lexeme] [stream.current] stream.passed.current :=
      .written .nil
    rw [Token.lexeme_eq_name.mpr here] at piece
    exact single settled (here.1 ▸ Token.Kind.isPart_name) piece
  · exact keyword settled here

theorem lays_label : Lays (fun found => found.toList.map Part.name) (ifAt .name name) := by
  intro stream rest found settled gives
  rcases gives_ifAt.mp gives with ⟨atName, label, read, rfl⟩ | ⟨_, rfl, rfl⟩
  · rcases gives_name.mp read with ⟨_, rfl, rfl⟩
    exact .name settled atName
  · exact .refl settled

theorem lays_operation {levels : Nat} (kind : OperationKind) {stream rest : Stream}
    {found : OperationDefinition} (settled : stream.Settled)
    (atKeyword : stream.current.kind = .name ∧ stream.current.text = kind.keyword)
    (gives : Gives (operation levels kind) stream found rest) :
    Takes stream rest [found.part] := by
  rw [operation, gives_current_bind, gives_advance_bind] at gives
  rcases gives_bind.mp gives with ⟨label, _, labelled, gives⟩
  rcases gives_bind.mp gives with ⟨declared, _, given, gives⟩
  rcases gives_bind.mp gives with ⟨marks, _, marked, gives⟩
  rcases gives_bind.mp gives with ⟨set, _, read, gives⟩
  rw [gives_spanFrom_bind] at gives
  rcases gives_pure.mp gives with ⟨same, rfl⟩
  have keyword : Takes stream stream.passed [found.keyword] :=
    .operationKeyword settled (by rw [same]; exact atKeyword)
  subst same
  have label := lays_label keyword.settled labelled
  have declared := lays_variableDefinitions levels label.settled given
  have marks := lays_directives levels declared.settled marked
  have body := marks.append (lays_selectionSet levels marks.settled read)
  have whole := keyword.append (label.append (declared.append body))
  exact whole.node settled ⟨set.part, by simp, rfl⟩ _ (by simp)

theorem lays_fragment {levels : Nat} : Lays (fun found => [found.part]) (fragment levels) := by
  intro stream rest found settled gives
  rw [fragment, gives_current_bind] at gives
  rcases gives_expectKeyword_bind.mp gives with ⟨atKeyword, gives⟩
  have keyword := Takes.keyword settled atKeyword
  rw [gives_isAtKeyword_bind] at gives
  split at gives
  · exact absurd gives not_gives_expected
  · rcases gives_name_bind.mp gives with ⟨atLabel, gives⟩
    have label := keyword.append (.name keyword.settled atLabel)
    rcases gives_expectKeyword_bind.mp gives with ⟨atOn, gives⟩
    have on := label.append (.keyword label.settled atOn)
    rcases gives_name_bind.mp gives with ⟨atCondition, gives⟩
    have condition := on.append (.name on.settled atCondition)
    rcases gives_bind.mp gives with ⟨marks, _, marked, gives⟩
    rcases gives_bind.mp gives with ⟨set, _, read, gives⟩
    rw [gives_spanFrom_bind] at gives
    rcases gives_pure.mp gives with ⟨rfl, rfl⟩
    have marks := lays_directives levels condition.settled marked
    have whole := condition.append (marks.append (lays_selectionSet levels marks.settled read))
    exact whole.node settled ⟨_, List.mem_cons_self, rfl⟩ _ (by simp)

theorem lays_definition (levels : Nat) :
    Lays (fun found => [found.part]) (definition levels) := by
  intro stream rest found settled gives
  rw [definition, gives_current_bind] at gives
  split at gives
  · rcases gives_map.mp gives with ⟨query, written, rfl⟩
    exact lays_shorthandQuery levels settled written
  next atName =>
    split at gives
    next kind keyword =>
      rcases gives_map.mp gives with ⟨operation, written, rfl⟩
      have text := OperationKind.ofKeyword?_eq_some.mp keyword
      exact lays_operation kind settled ⟨atName, text⟩ written
    · split at gives
      · rcases gives_map.mp gives with ⟨fragment, written, rfl⟩
        exact lays_fragment settled written
      · exact absurd gives not_gives_expected
  · exact absurd gives not_gives_expected

theorem exists_written (definition : Definition) :
    ∃ part ∈ [definition.part], part.isWritten = true := by
  cases definition <;> exact ⟨_, List.mem_cons_self, rfl⟩

theorem takes_definitions {limit bound : Nat} {stream rest : Stream} {found : List Definition}
    (settled : stream.Settled) (enough : stream.following.length < bound)
    (read : definitions limit bound stream = .ok (found, rest)) :
    Takes stream rest (found.map Definition.part) ∧ rest.current.kind = .endOfInput := by
  induction bound generalizing stream found with
  | zero => exact absurd enough (Nat.not_lt_zero _)
  | succ bound induction =>
      rw [definitions] at read
      split at read
      next atEnd =>
        cases read
        exact ⟨.refl settled, atEnd⟩
      · split at read
        · cases read
        next first between given =>
          split at read
          · cases read
          next others last more =>
            cases read
            have here := lays_definition limit settled given
            have shorter := here.length_following (exists_written first)
            have left := Nat.lt_of_lt_of_le shorter (Nat.le_of_lt_succ enough)
            rcases induction here.settled left more with ⟨takes, atEnd⟩
            exact ⟨here.append takes, atEnd⟩

end Parser

/-! ## Lines and columns -/

namespace Location

def lineLength (text : List Char) : Nat := (text.reverse.takeWhile (· != '\n')).length

end Location

theorem Token.endOf_concat (text : List Char) (character : Char) :
    endOf (text ++ [character]) = (endOf text).after character := by
  rw [endOf, List.foldl_append]
  rfl

theorem Token.endOf_eq (text : List Char) :
    endOf text = ⟨text.count '\n' + 1, Location.lineLength text + 1⟩ := by
  induction text using List.reverseRecOn with
  | nil => rfl
  | append_singleton text character induction =>
      rw [endOf_concat, induction, Location.after]
      split
      next lineFeed =>
        subst lineFeed
        simp [Location.lineLength]
      next inside =>
        simp [Location.lineLength, inside]

/-! ## Whole texts -/

theorem Parser.Stream.Ended.atEnd {stream : Stream} (ended : stream.Ended)
    (atEnd : stream.current.kind = .endOfInput) : stream.tokens = [stream.current] := by
  rcases ended with ⟨words, shows⟩
  cases shows with
  | done => rfl
  | more notEnd => exact absurd atEnd notEnd

theorem Document.fills_of_parse {limit : Nat} {text : List Char} {document : Document}
    (parsed : Parser.parseDocument limit text = .ok document)
    (occupied : document.definitions ≠ []) :
    ∃ tokens last, Token.tokenize text = tokens ++ [last] ∧ last.kind = .endOfInput ∧
      Fills [document.part] tokens last := by
  simp only [Parser.parseDocument] at parsed
  split at parsed
  · cases parsed
  next found rest read =>
    cases parsed
    have settled := Parser.Stream.settled_ofText text
    rcases Parser.takes_definitions settled (Nat.lt_succ_self _) read with ⟨takes, atEnd⟩
    have written : ∃ part ∈ found.map Definition.part, part.isWritten = true := by
      cases found with
      | nil => exact absurd rfl occupied
      | cons first others =>
          rcases Parser.exists_written first with ⟨part, member, isWritten⟩
          exact ⟨part, List.mem_cons.mpr (.inl (List.mem_singleton.mp member)), isWritten⟩
    have whole := takes.node settled written none (by simp)
    rcases whole.filled with ⟨tokens, split, fills⟩
    rw [Parser.Stream.tokens_ofText, whole.settled.ended.atEnd atEnd] at split
    exact ⟨tokens, rest.current, split, atEnd, fills⟩

/-- A document that has been read, and is not empty, lies over the tokens of its text: a name
over one token, from which it has its text, its span and its location; every other node from its
first token to the end of the token after its last one, which is the end of the text where no
other token follows. Each location is the line and the column where the span begins, the
children of a node lie within it and begin one after the other. -/
theorem Document.positions_of_parse {limit : Nat} {text : List Char} {document : Document}
    (parsed : Parser.parseDocument limit text = .ok document)
    (occupied : document.definitions ≠ []) :
    (∃ tokens last, Token.tokenize text = tokens ++ [last] ∧ last.kind = .endOfInput ∧
      last.span = Span.empty (Token.byteCount text) ∧ Fills [document.part] tokens last) ∧
    (∀ site ∈ document.part.sites, ∃ front back, text = front ++ back ∧
      site.1.start = Token.byteCount front ∧
        site.2 = ⟨front.count '\n' + 1, Location.lineLength front + 1⟩) ∧
    ∀ family ∈ document.part.families,
      (∀ child ∈ family.2, family.1.start ≤ child.start ∧ child.stop ≤ family.1.stop) ∧
        family.2.Pairwise fun first second => first.start < second.start := by
  rcases fills_of_parse parsed occupied with ⟨tokens, last, split, atEnd, fills⟩
  have divides := Token.divides_tokenize text
  refine ⟨⟨tokens, last, split, atEnd, ?_, fills⟩, ?_, ?_⟩
  · rcases divides.ends with ⟨words, same, _⟩
    rw [split] at same
    rw [(List.append_inj_right' same rfl |> List.cons.inj).1]
    simp [Token.spanning, Span.empty]
  · intro site member
    rcases fills.sites_from site (List.mem_append_left _ member) with ⟨token, among, start, place⟩
    have found : token ∈ Token.tokenize text := by
      rw [split]
      exact List.mem_append_left _ among
    rcases divides.covers token found with ⟨front, word, back, whole, covered, _⟩
    refine ⟨front, word ++ back, whole, ?_, ?_⟩
    · rw [start, covered]
      rfl
    · rw [place, covered, ← Token.endOf_eq]
      rfl
  · intro family member
    have ordered := Token.ordered_tokenize text
    rw [split] at ordered
    have nested := fills.nested ordered family (List.mem_append_left _ member)
    exact ⟨nested.within, nested.rising⟩

def afterComment : List Char := "# é\n\x7b a(b: $c) \x7d".toList

theorem Document.positions_after_comment : ∃ document,
    Parser.parseDocument 1 afterComment = .ok document ∧ document.definitions ≠ [] ∧
      document.part.families.map (fun family => (family.1, family.2.length)) =
        [(⟨5, 17⟩, 1), (⟨5, 17⟩, 1), (⟨5, 17⟩, 1), (⟨7, 17⟩, 2), (⟨9, 15⟩, 2)] ∧
      ∀ site ∈ document.part.sites, ∃ front back, afterComment = front ++ back ∧
        site.1.start = Token.byteCount front ∧
          site.2 = ⟨front.count '\n' + 1, Location.lineLength front + 1⟩ := by
  have measured : (Parser.parseDocument 1 afterComment).toOption.map (fun document =>
      (document.definitions.length,
        document.part.families.map fun family => (family.1, family.2.length))) =
      some (1, [(⟨5, 17⟩, 1), (⟨5, 17⟩, 1), (⟨5, 17⟩, 1), (⟨7, 17⟩, 2), (⟨9, 15⟩, 2)]) := by
    cbv
  cases parsed : Parser.parseDocument 1 afterComment with
  | error error =>
      rw [parsed] at measured
      cases measured
  | ok document =>
      rw [parsed] at measured
      rcases Prod.mk.inj (Option.some.inj measured) with ⟨one, families⟩
      have occupied : document.definitions ≠ [] := by
        intro none
        rw [none] at one
        cases one
      exact ⟨document, rfl, occupied, families, (Document.positions_of_parse parsed occupied).2.1⟩

end GraphQuery
