import GraphQuery.Proofs.Syntax.Reading

namespace GraphQuery.Parser

/-! Every tree that fits its lexemes is given by the parser of such trees, as long
as nothing follows that would be read as a part of it. -/

def Apart (kinds : List Token.Kind) (words : List Lexeme) : Prop :=
  ∀ kind ∈ kinds, words.head? ≠ some (.mark kind)

theorem apart_nil (words : List Lexeme) : Apart [] words := nofun

theorem apart_cons {kind : Token.Kind} {kinds : List Token.Kind} {words : List Lexeme} :
    Apart (kind :: kinds) words ↔ words.head? ≠ some (.mark kind) ∧ Apart kinds words :=
  List.forall_mem_cons

theorem apart_mark {kind : Token.Kind} {kinds : List Token.Kind} {words : List Lexeme}
    (other : kind ∉ kinds) : Apart kinds (.mark kind :: words) := by
  intro found member same
  cases same
  exact other member

theorem apart_braces {kinds : List Token.Kind} {inner words : List Lexeme}
    (other : .braceOpen ∉ kinds) : Apart kinds (Lexeme.braces inner ++ words) := by
  rw [Lexeme.braces_append]
  exact apart_mark other

/-- The parser gives each tree that fits the lexemes of a stream and leaves what
follows them. -/
def Complete {α : Type} (phrase : Phrase α) (levels : Nat) (parser : Parser α) : Prop :=
  ∀ ⦃stream : Stream⦄ ⦃words others : List Lexeme⦄ ⦃tree : α⦄,
    phrase.Fits levels tree words → stream.Shows (words ++ others) →
    Apart phrase.extensions others →
    ∃ found rest, Gives parser stream found rest ∧ phrase.bare found = tree ∧ rest.Shows others

/-! ## Single tokens -/

namespace Stream.Shows

variable {stream : Stream} {words others : List Lexeme} {kind : Token.Kind} {text : String}

theorem not_at_mark (shows : stream.Shows words) (punctuator : kind.isPunctuator = true)
    (elsewhere : words.head? ≠ some (.mark kind)) : stream.current.kind ≠ kind := by
  cases words with
  | nil =>
      rw [shows.atEnd]
      rintro rfl
      cases punctuator
  | cons first others =>
      intro here
      have lexeme := (Token.lexeme_eq_mark punctuator).mpr here
      exact elsewhere (by rw [List.head?_cons, ← shows.current, lexeme])

theorem not_at_name (shows : stream.Shows words)
    (elsewhere : ∀ text, words.head? ≠ some (.name text)) : stream.current.kind ≠ .name := by
  cases words with
  | nil =>
      rw [shows.atEnd]
      nofun
  | cons first others =>
      intro here
      have lexeme := Token.lexeme_eq_name.mpr ⟨here, rfl⟩
      exact elsewhere _ (by rw [List.head?_cons, ← shows.current, lexeme])

theorem gives_name (shows : stream.Shows (.name text :: others)) :
    ∃ label : Name, label.text = text ∧ Gives name stream label stream.passed := by
  exact ⟨_, shows.text_current rfl, Parser.gives_name.mpr ⟨shows.kind_current, rfl, rfl⟩⟩

theorem gives_expect (shows : stream.Shows (.mark kind :: others)) :
    Gives (expect kind) stream () stream.passed := by
  rw [← bind_pure (expect kind), gives_expect_bind]
  exact ⟨shows.kind_current, gives_return ()⟩

theorem gives_expectKeyword (shows : stream.Shows (.name text :: others)) :
    Gives (expectKeyword text) stream () stream.passed := by
  rw [← bind_pure (expectKeyword text), gives_expectKeyword_bind]
  exact ⟨⟨shows.kind_current, shows.text_current rfl⟩, gives_return ()⟩

theorem gives_no_keyword {word : String} (shows : stream.Shows (.name text :: others))
    (differs : text ≠ word) : Gives (isAtKeyword word) stream false stream := by
  rw [← bind_pure (isAtKeyword word), gives_isAtKeyword_bind, shows.text_current rfl]
  exact gives_pure.mpr ⟨by simp [differs], rfl⟩

theorem gives_accept (shows : stream.Shows (.mark kind :: others)) :
    Gives (accept kind) stream true stream.passed := by
  rw [← bind_pure (accept kind), gives_accept_bind]
  exact .inl ⟨shows.kind_current, gives_return true⟩

theorem gives_no_accept (shows : stream.Shows words) (punctuator : kind.isPunctuator = true)
    (elsewhere : words.head? ≠ some (.mark kind)) : Gives (accept kind) stream false stream := by
  rw [← bind_pure (accept kind), gives_accept_bind]
  exact .inr ⟨shows.not_at_mark punctuator elsewhere, gives_return false⟩

end Stream.Shows

theorem gives_current (stream : Stream) : Gives current stream stream.current stream := rfl

theorem gives_spanFrom (first : Token) (stream : Stream) :
    Gives (spanFrom first) stream
      ⟨first.span.start, max stream.current.span.stop first.span.start⟩ stream := rfl

/-! ## Repetition -/

section Repetition

variable {α : Type} {phrase : Phrase α} {levels : Nat} {item : Parser α} {here : Token → Bool}

/-- Phrases that can stand one after another: each begins with a token that is
looked for, and not with a mark that the one before would take. -/
def Chains (phrase : Phrase α) (here : Token → Bool) : Prop :=
  ∀ ⦃tree : α⦄ ⦃words : List Lexeme⦄, phrase.Written tree words →
    ∃ first others, words = first :: others ∧
      (∀ token : Token, token.lexeme = first → here token = true) ∧
      ∀ kind ∈ phrase.extensions, first ≠ .mark kind

theorem Chains.apart (chains : Chains phrase here) {trees : List α} {words others : List Lexeme}
    (written : Sequence phrase.Written trees words) (apart : Apart phrase.extensions others) :
    Apart phrase.extensions (words ++ others) := by
  cases written with
  | nil => exact apart
  | cons written more =>
      rcases chains written with ⟨first, others, rfl, _, elsewhere⟩
      intro kind member
      simpa using elsewhere kind member

theorem Chains.length_le (chains : Chains phrase here) {trees : List α} {words : List Lexeme}
    (written : Sequence phrase.Written trees words) : trees.length ≤ words.length := by
  induction written with
  | nil => exact Nat.le_refl 0
  | cons written more induction =>
      rcases chains written with ⟨first, others, rfl, _, _⟩
      simp only [List.length_cons, List.length_append]
      omega

theorem chains_until {closing : Token.Kind} (punctuator : closing.isPunctuator = true)
    (opens : ∀ ⦃tree : α⦄ ⦃words : List Lexeme⦄, phrase.Written tree words →
      ∃ first others, words = first :: others ∧
        ∀ kind ∈ closing :: phrase.extensions, first ≠ .mark kind) :
    Chains phrase fun token => token.kind != closing := by
  intro tree words written
  rcases opens written with ⟨first, others, rfl, elsewhere⟩
  rw [List.forall_mem_cons] at elsewhere
  refine ⟨first, others, rfl, ?_, elsewhere.2⟩
  rintro token rfl
  have other := elsewhere.1
  rw [Ne, Token.lexeme_eq_mark punctuator] at other
  exact bne_iff_ne.mpr other

theorem repeatedly_complete (complete : Complete phrase levels item)
    (chains : Chains phrase here) {extensions : List Token.Kind} {trees : List α}
    {words others : List Lexeme} {stream : Stream} {bound : Nat}
    (fits : (phrase.sequence extensions).Fits levels trees words)
    (shows : stream.Shows (words ++ others)) (apart : Apart phrase.extensions others)
    (stops : ∀ stream : Stream, stream.Shows others → here stream.current = false)
    (enough : trees.length ≤ bound) :
    ∃ found rest, Gives (repeatedly here item bound) stream found rest ∧
      found.map phrase.bare = trees ∧ rest.Shows others := by
  induction trees generalizing words stream bound with
  | nil =>
      rcases fits with ⟨written, _, _⟩
      cases written
      refine ⟨[], stream, ?_, rfl, shows⟩
      cases bound with
      | zero => exact gives_return []
      | succ bound =>
          rw [repeatedly, gives_current_bind, stops stream shows]
          exact gives_return []
  | cons tree trees induction =>
      rcases fits.uncons with ⟨words, more, rfl, fits, fitsMore⟩
      -- The bound outlasts the trees, so it is never what ends the repetition.
      rcases Nat.exists_eq_add_one.mpr (Nat.zero_lt_of_lt enough) with ⟨bound, rfl⟩
      rw [List.append_assoc] at shows
      rcases chains fits.written with ⟨first, rest, same, starts, _⟩
      have atItem : here stream.current = true := by
        rw [same] at shows
        exact starts _ shows.current
      rcases complete fits shows (chains.apart fitsMore.written apart) with
          ⟨found, between, atFound, rfl, left⟩
      rcases induction fitsMore left (Nat.le_of_succ_le_succ enough) with
          ⟨rest, last, atRest, rfl, left⟩
      refine ⟨found :: rest, last, ?_, rfl, left⟩
      rw [repeatedly, gives_current_bind, if_pos atItem]
      exact atFound.bind (atRest.bind (gives_return _))

variable {stream : Stream} {trees : List α} {words others : List Lexeme}

theorem many_complete (complete : Complete phrase levels item) (chains : Chains phrase here)
    {extensions : List Token.Kind}
    (fits : (phrase.sequence extensions).Fits levels trees words)
    (shows : stream.Shows (words ++ others)) (apart : Apart phrase.extensions others)
    (stops : ∀ stream : Stream, stream.Shows others → here stream.current = false) :
    ∃ found rest, Gives (many here item) stream found rest ∧
      found.map phrase.bare = trees ∧ rest.Shows others := by
  have few := chains.length_le fits.written
  have length := shows.length_following
  rw [List.length_append] at length
  have enough : trees.length ≤ stream.following.length + 1 := by omega
  rcases repeatedly_complete complete chains fits shows apart stops enough with
      ⟨found, rest, gives, same, left⟩
  exact ⟨found, rest, gives_get_bind.mpr gives, same, left⟩

variable {closing : Token.Kind}

theorem manyUntil_complete (complete : Complete phrase levels item)
    (chains : Chains phrase fun token => token.kind != closing)
    (closes : closing ∉ phrase.extensions)
    (fits : (phrase.sequence []).Fits levels trees words)
    (shows : stream.Shows (words ++ .mark closing :: others)) :
    ∃ found rest, Gives (manyUntil closing item) stream found rest ∧
      found.map phrase.bare = trees ∧ rest.Shows others := by
  rcases many_complete complete chains fits shows (apart_mark closes)
    fun stream shows => by simp [shows.kind_current, Lexeme.kind] with
      ⟨found, between, atItems, same, left⟩
  have atClosing := left.gives_expect
  exact ⟨found, between.passed, atItems.bind (atClosing.bind (gives_return found)), same,
    left.passed⟩

theorem someUntil_complete (complete : Complete phrase levels item)
    (chains : Chains phrase fun token => token.kind != closing)
    (closes : closing ∉ phrase.extensions)
    (fits : (phrase.sequence []).Fits levels trees words) (occupied : trees ≠ [])
    (shows : stream.Shows (words ++ .mark closing :: others)) :
    ∃ found rest, Gives (someUntil closing item) stream found rest ∧
      found.map phrase.bare = trees ∧ rest.Shows others := by
  cases trees with
  | nil => exact absurd rfl occupied
  | cons tree trees =>
      rcases fits.uncons with ⟨words, more, rfl, fits, fitsMore⟩
      rw [List.append_assoc] at shows
      rcases complete fits shows (chains.apart fitsMore.written (apart_mark closes)) with
          ⟨first, between, atFirst, rfl, left⟩
      rcases manyUntil_complete complete chains closes fitsMore left with
          ⟨found, rest, atRest, rfl, left⟩
      exact ⟨first :: found, rest, atFirst.bind (atRest.bind (gives_return _)), rfl,
        left⟩

end Repetition

/-! ## Literals -/

theorem chains_literal (constant : Bool) :
    Chains (.literal constant) fun token => token.kind != .bracketClose := by
  apply chains_until rfl
  intro tree words written
  cases written <;>
    exact ⟨_, _, rfl, by simp [Phrase.literal]⟩

theorem chains_literalField (constant : Bool) :
    Chains (.literalField constant) fun token => token.kind != .braceClose := by
  apply chains_until rfl
  intro tree words written
  cases written
  exact ⟨_, _, rfl, by simp [Phrase.literalField]⟩

theorem objectField_complete {constant : Bool} {levels : Nat} {value : Parser Literal}
    (complete : Complete (.literal constant) levels value) :
    Complete (.literalField constant) levels (objectField value) := by
  intro stream words others tree fits shows _
  rcases fits with ⟨written, readable, shallow⟩
  cases written with
  | intro key written =>
      rw [List.forall_mem_cons, List.forall_mem_cons] at readable
      rcases shows.gives_name with ⟨key, rfl, atKey⟩
      have atColon := shows.passed.gives_expect
      rcases complete ⟨written, readable.2.2, shallow⟩ shows.passed.passed (apart_nil _) with
          ⟨value, rest, atValue, rfl, left⟩
      exact ⟨(key, value), rest, atKey.bind (atColon.bind (atValue.bind (gives_return _))), rfl,
        left⟩

section Literals

variable {constant : Bool} {levels : Nat} {inner? : Option (Parser Literal)}
  {stream : Stream} {words others : List Lexeme} {tree : Literal}

theorem keywordLiteral_complete {label : String}
    (shows : stream.Shows (.name label :: others)) :
    Gives (literalWith constant inner?) stream (keywordLiteral label) stream.passed := by
  simp only [literalWith, gives_current_bind, shows.kind_current, Lexeme.kind,
    shows.text_current rfl, gives_advance_bind]
  exact gives_return _

theorem listLiteral_complete {inner : Parser Literal} {items : List Literal}
    (complete : Complete (.literal constant) levels inner)
    (fits : ((Phrase.literal constant).sequence []).Fits levels items words)
    (shows : stream.Shows (Lexeme.brackets words ++ others)) :
    ∃ found rest, Gives (literalWith constant (some inner)) stream found rest ∧
      found.bare = .list items ∧ rest.Shows others := by
  rw [Lexeme.brackets_append] at shows
  rcases manyUntil_complete complete (chains_literal constant) List.not_mem_nil fits
    shows.passed with ⟨items, rest, atItems, rfl, left⟩
  refine ⟨.list items, rest, ?_, Literal.bare_list items, left⟩
  simp only [literalWith, gives_current_bind, shows.kind_current, Lexeme.kind,
    gives_advance_bind]
  exact atItems.bind (gives_return _)

theorem objectLiteral_complete {inner : Parser Literal} {fields : List (Name × Literal)}
    (complete : Complete (.literal constant) levels inner)
    (fits : ((Phrase.literalField constant).sequence []).Fits levels fields words)
    (shows : stream.Shows (Lexeme.braces words ++ others)) :
    ∃ found rest, Gives (literalWith constant (some inner)) stream found rest ∧
      found.bare = .object fields ∧ rest.Shows others := by
  rw [Lexeme.braces_append] at shows
  rcases manyUntil_complete (objectField_complete complete) (chains_literalField constant)
    List.not_mem_nil fits shows.passed with ⟨fields, rest, atFields, rfl, left⟩
  refine ⟨.object fields, rest, ?_, Literal.bare_object fields, left⟩
  simp only [literalWith, gives_current_bind, shows.kind_current, Lexeme.kind,
    gives_advance_bind]
  exact atFields.bind (gives_return _)

theorem literalWith_complete
    (complete : ∀ less, levels = less + 1 →
      ∃ inner, inner? = some inner ∧ Complete (.literal constant) less inner) :
    Complete (.literal constant) levels (literalWith constant inner?) := by
  intro stream words others tree fits shows _
  rcases fits with ⟨written, readable, shallow⟩
  cases written with
  | reference label free =>
      rcases shows.passed.gives_name with ⟨name, rfl, atName⟩
      refine ⟨.reference name, _, ?_, rfl, shows.passed.passed⟩
      simp only [literalWith, gives_current_bind, shows.kind_current, Lexeme.kind, free,
        Bool.false_eq_true, if_false, gives_advance_bind]
      exact atName.bind (gives_return _)
  | int text =>
      have fits : Word.int64.Fits (intOfText text.toList) := readable _ (List.mem_singleton_self _)
      refine ⟨.int (intOfText text.toList), _, ?_, rfl, shows.passed⟩
      simp only [literalWith, gives_current_bind, shows.kind_current, Lexeme.kind,
        shows.text_current rfl, if_pos fits, gives_advance_bind]
      exact gives_return _
  | float text =>
      refine ⟨.float (floatOfText text.toList), _, ?_, rfl, shows.passed⟩
      simp only [literalWith, gives_current_bind, shows.kind_current, Lexeme.kind,
        shows.text_current rfl, gives_advance_bind]
      exact gives_return _
  | string text => 
      have unescapes : (StringLiteral.unescape (between 1 text)).isSome :=
        readable _ (List.mem_singleton_self _)
      rcases Option.isSome_iff_exists.mp unescapes with ⟨value, unescaped⟩
      refine ⟨.string (Literal.stringOfText text), _, ?_, rfl, shows.passed⟩
      simp only [literalWith, gives_current_bind, shows.kind_current, Lexeme.kind,
        shows.text_current rfl, unescaped, gives_advance_bind, Literal.stringOfText,
        Option.getD_some]
      exact gives_return _
  | blockString text =>
      refine ⟨.string (Literal.blockOfText text), _, ?_, rfl, shows.passed⟩
      simp only [literalWith, gives_current_bind, shows.kind_current, Lexeme.kind,
        shows.text_current rfl, gives_advance_bind]
      exact gives_return _
  | true => exact ⟨_, _, keywordLiteral_complete shows, rfl, shows.passed⟩
  | false => exact ⟨_, _, keywordLiteral_complete shows, rfl, shows.passed⟩
  | null => exact ⟨_, _, keywordLiteral_complete shows, rfl, shows.passed⟩
  | symbol label other =>
      have plain : keywordLiteral label = .symbol label := by simp [keywordLiteral, other]
      refine ⟨_, _, keywordLiteral_complete shows, ?_, shows.passed⟩
      rw [plain]
      rfl
  | list written =>
      simp only [Phrase.literal, Literal.nesting, Literal.nestingItems_eq] at shallow
      rcases Nat.exists_eq_add_one.mpr (Nat.zero_lt_of_lt shallow) with ⟨less, rfl⟩
      rcases complete less rfl with ⟨inner, rfl, completeInner⟩
      rw [Lexeme.readable_brackets] at readable
      exact listLiteral_complete completeInner
        ⟨written, readable, Nat.le_of_succ_le_succ shallow⟩ shows
  | object written =>
      simp only [Phrase.literal, Literal.nesting, Literal.nestingFields_eq] at shallow
      rcases Nat.exists_eq_add_one.mpr (Nat.zero_lt_of_lt shallow) with ⟨less, rfl⟩
      rcases complete less rfl with ⟨inner, rfl, completeInner⟩
      rw [Lexeme.readable_braces] at readable
      exact objectLiteral_complete completeInner
        ⟨written, readable, Nat.le_of_succ_le_succ shallow⟩ shows

end Literals

theorem literal_complete (constant : Bool) (levels : Nat) :
    Complete (.literal constant) levels (literal constant levels) := by
  induction levels with
  | zero => exact literalWith_complete nofun
  | succ levels induction =>
      apply literalWith_complete
      rintro less same
      cases same
      exact ⟨_, rfl, induction⟩

/-! ## Types -/

section Types

variable {levels : Nat} {inner? : Option (Parser TypeNode)}

theorem nullableType_complete
    (complete : ∀ less, levels = less + 1 →
      ∃ inner, inner? = some inner ∧ Complete .typeNode less inner)
    {stream : Stream} {words others : List Lexeme} {tree : TypeNode}
    (fits : Phrase.typeNode.Fits levels tree words) (nullable : tree.isNonNull = false)
    (shows : stream.Shows (words ++ others)) :
    ∃ found rest, Gives (nullableType inner?) stream found rest ∧ found.bare = tree ∧
      rest.Shows others := by
  rcases fits with ⟨written, readable, shallow⟩
  cases written with
  | named label =>
      rcases shows.gives_name with ⟨name, rfl, atName⟩
      have noBracket : Gives (accept .bracketOpen) stream false stream :=
        shows.gives_no_accept rfl nofun
      exact ⟨.named name, _, noBracket.bind (atName.bind (gives_return _)), rfl, shows.passed⟩
  | list written =>
      rw [Lexeme.brackets_append] at shows
      rw [Lexeme.readable_brackets] at readable
      rcases Nat.exists_eq_add_one.mpr (Nat.zero_lt_of_lt shallow) with ⟨less, rfl⟩
      rcases complete less rfl with ⟨inner, rfl, completeInner⟩
      rcases completeInner ⟨written, readable, Nat.le_of_succ_le_succ shallow⟩ shows.passed
          (apart_mark (by decide)) with ⟨item, between, atItem, rfl, left⟩
      have atClosing := left.gives_expect
      exact ⟨.list item, _,
        shows.gives_accept.bind (atItem.bind (atClosing.bind (gives_return _))), rfl, left.passed⟩
  | nonNull once written => cases nullable

theorem typeNodeWith_complete
    (complete : ∀ less, levels = less + 1 →
      ∃ inner, inner? = some inner ∧ Complete .typeNode less inner) :
    Complete .typeNode levels (typeNodeWith inner?) := by
  intro stream words others tree fits shows apart
  cases nullable : tree.isNonNull with
  | false =>
      rcases nullableType_complete complete fits nullable shows with
          ⟨found, rest, atType, rfl, left⟩
      have noBang := left.gives_no_accept rfl (apart .bang (List.mem_singleton_self _))
      exact ⟨found, rest, atType.bind (noBang.bind (gives_return _)), rfl, left⟩
  | true =>
      rcases fits with ⟨written, readable, shallow⟩
      cases written with
      | nonNull once written =>
          rw [List.append_assoc] at shows
          rcases nullableType_complete complete
            ⟨written, (List.forall_mem_append.mp readable).1, shallow⟩ once shows with
              ⟨found, between, atType, rfl, left⟩
          exact ⟨.nonNull found, _, atType.bind (left.gives_accept.bind (gives_return _)), rfl,
            left.passed⟩
      | _ => cases nullable

end Types

theorem typeNode_complete (levels : Nat) : Complete .typeNode levels (typeNode levels) := by
  induction levels with
  | zero => exact typeNodeWith_complete nofun
  | succ levels induction =>
      apply typeNodeWith_complete
      rintro less same
      cases same
      exact ⟨_, rfl, induction⟩

/-! ## Arguments and directives -/

theorem chains_argument : Chains .argument fun token => token.kind != .parenClose := by
  apply chains_until rfl
  intro tree words written
  cases written
  exact ⟨_, _, rfl, by simp [Phrase.argument]⟩

theorem argument_complete (levels : Nat) : Complete .argument levels (argument levels) := by
  intro stream words others tree fits shows _
  rcases fits with ⟨written, readable, shallow⟩
  cases written with
  | intro key written =>
      rw [List.forall_mem_cons, List.forall_mem_cons] at readable
      rcases shows.gives_name with ⟨key, rfl, atKey⟩
      have atColon := shows.passed.gives_expect
      rcases literal_complete false levels ⟨written, readable.2.2, shallow⟩ shows.passed.passed
          (apart_nil _) with ⟨value, rest, atValue, rfl, left⟩
      exact ⟨_, rest, (gives_current _).bind (atKey.bind (atColon.bind (atValue.bind
        ((gives_spanFrom _ _).bind (gives_return _))))), rfl, left⟩

section Parentheses

variable {α : Type} {phrase : Phrase α} {levels : Nat} {item : Parser α}

theorem parenthesized_complete (complete : Complete phrase levels item)
    (chains : Chains phrase fun token => token.kind != .parenClose)
    (closes : .parenClose ∉ phrase.extensions) :
    Complete phrase.parenthesized levels (do
      if ← accept .parenOpen then someUntil .parenClose item else return []) := by
  intro stream words others trees fits shows apart
  rcases fits with ⟨written, readable, shallow⟩
  cases written with
  | none =>
      have noParen := shows.gives_no_accept rfl (apart .parenOpen (List.mem_singleton_self _))
      exact ⟨[], stream, noParen.bind (gives_return _), rfl, shows⟩
  | some occupied written =>
      rw [Lexeme.parentheses_append] at shows
      rw [Lexeme.readable_parentheses] at readable
      rcases someUntil_complete complete chains closes
        ⟨written, readable, shallow⟩ occupied shows.passed with ⟨found, rest, atItems, same, left⟩
      exact ⟨found, rest, shows.gives_accept.bind atItems, same, left⟩

end Parentheses

theorem arguments_complete (levels : Nat) :
    Complete Phrase.argument.parenthesized levels (arguments levels) :=
  parenthesized_complete (argument_complete levels) chains_argument (by decide)

theorem chains_directive : Chains .directive fun token => token.kind == .atSign := by
  intro tree words written
  cases written with
  | intro label written =>
      refine ⟨_, _, rfl, ?_, by simp [Phrase.directive]⟩
      intro token lexeme
      exact beq_iff_eq.mpr ((Token.lexeme_eq_mark rfl).mp lexeme)

theorem directive_complete (levels : Nat) : Complete .directive levels (directive levels) := by
  intro stream words others tree fits shows apart
  rcases fits with ⟨written, readable, shallow⟩
  cases written with
  | intro label written =>
      rw [List.forall_mem_cons, List.forall_mem_cons] at readable
      have atSign := shows.gives_expect
      rcases shows.passed.gives_name with ⟨label, rfl, atLabel⟩
      rcases arguments_complete levels
        ⟨written, readable.2.2, shallow⟩ shows.passed.passed apart with
          ⟨values, rest, atValues, rfl, left⟩
      exact ⟨_, rest, (gives_current _).bind (atSign.bind (atLabel.bind (atValues.bind
        ((gives_spanFrom _ _).bind (gives_return _))))), rfl, left⟩

theorem directives_complete (levels : Nat) : Complete .directives levels (directives levels) := by
  intro stream words others trees fits shows apart
  rcases apart_cons.mp apart with ⟨noParen, apart⟩
  rcases apart_cons.mp apart with ⟨noSign, _⟩
  apply many_complete (directive_complete levels) chains_directive fits shows
  · exact apart_cons.mpr ⟨noParen, apart_nil _⟩
  · intro rest shows
    exact beq_eq_false_iff_ne.mpr (shows.not_at_mark rfl noSign)

/-! ## Selections

Between the parts of a selection stands a mark that begins the next part, if
that part is there. -/

section Parts

variable {first : Lexeme} {words others : List Lexeme}

theorem parenthesized_elsewhere {α : Type} {item : α → List Lexeme → Prop} {trees : List α}
    (written : Parenthesized item trees words) (elsewhere : others.head? ≠ some first)
    (differs : first ≠ .mark .parenOpen) : (words ++ others).head? ≠ some first := by
  cases written with
  | none => exact elsewhere
  | some _ _ => simpa [Lexeme.parentheses] using differs.symm

theorem directives_elsewhere {trees : List Directive}
    (written : Sequence Directive.Written trees words) (elsewhere : others.head? ≠ some first)
    (differs : first ≠ .mark .atSign) : (words ++ others).head? ≠ some first := by
  cases written with
  | nil => exact elsewhere
  | cons written _ =>
      cases written
      simpa using differs.symm

end Parts

section Heads

variable {levels : Nat} {stream : Stream} {words others : List Lexeme}

theorem fieldNames_complete {label : Option String} {key : String}
    (shows : stream.Shows (Lexeme.labelled label key ++ others))
    (elsewhere : others.head? ≠ some (.mark .colon)) :
    ∃ found rest, Gives fieldNames stream found rest ∧
      found.1.map Name.bare = label.map Name.plain ∧ found.2.bare = Name.plain key ∧
      rest.Shows others := by
  cases label with
  | none =>
      rcases shows.gives_name with ⟨name, rfl, atName⟩
      have noColon := shows.passed.gives_no_accept rfl elsewhere
      exact ⟨(none, name), _, atName.bind (noColon.bind (gives_return _)), rfl, rfl, shows.passed⟩
  | some label =>
      rcases shows.gives_name with ⟨label, rfl, atLabel⟩
      have atColon := shows.passed.gives_accept
      rcases shows.passed.passed.gives_name with ⟨name, rfl, atName⟩
      exact ⟨(some label, name), _,
        atLabel.bind (atColon.bind (atName.bind (gives_return _))), rfl, rfl,
        shows.passed.passed.passed⟩

theorem fieldHead_complete {head : FieldHead} (fits : Phrase.fieldHead.Fits levels head words)
    (shows : stream.Shows (words ++ others)) (apart : Apart Phrase.fieldHead.extensions others) :
    ∃ names afterNames values afterValues marks rest,
      Gives fieldNames stream names afterNames ∧
      Gives (arguments levels) afterNames values afterValues ∧
      Gives (directives levels) afterValues marks rest ∧ rest.Shows others ∧
      ∀ span location,
        FieldHead.bare ⟨names.1, names.2, values, marks, span, location⟩ = head := by
  rcases fits with ⟨written, readable, shallow⟩
  cases written with
  | intro label key writtenValues writtenMarks =>
      rcases Nat.max_le.mp shallow with ⟨shallowValues, shallowMarks⟩
      simp only [List.forall_mem_append] at readable
      rcases apart_cons.mp apart with ⟨noColon, apart⟩
      rcases apart_cons.mp apart with ⟨noParen, _⟩
      have apartMarks := directives_elsewhere writtenMarks noParen (by decide)
      have apartNames := parenthesized_elsewhere writtenValues
        (directives_elsewhere writtenMarks noColon (by decide)) (by decide)
      simp only [List.append_assoc] at shows
      rcases fieldNames_complete shows apartNames with
          ⟨⟨first, second⟩, afterNames, atNames, sameLabel, sameKey, left⟩
      rcases arguments_complete levels
        ⟨writtenValues, readable.2.1, shallowValues⟩ left
        (apart_cons.mpr ⟨apartMarks, apart_nil _⟩) with
          ⟨values, afterValues, atValues, rfl, left⟩
      rcases directives_complete levels
        ⟨writtenMarks, readable.2.2, shallowMarks⟩ left
        apart with
          ⟨marks, rest, atMarks, rfl, left⟩
      refine ⟨_, afterNames, values, afterValues, marks, rest, atNames, atValues, atMarks, left,
        fun span location => ?_⟩
      simp only [FieldHead.bare, sameLabel, sameKey]
      rfl

theorem fieldHead_opens {head : FieldHead} (written : head.Written words) :
    ∃ text rest, words = .name text :: rest := by
  cases written with
  | intro label key _ _ => cases label <;> exact ⟨_, _, rfl⟩

theorem gives_no_spread {head : FieldHead} (written : head.Written words)
    (shows : stream.Shows (words ++ others)) : Gives (accept .spread) stream false stream := by
  rcases fieldHead_opens written with ⟨text, rest, rfl⟩
  exact shows.gives_no_accept rfl nofun

end Heads

section Selections

variable {levels : Nat} {set : Parser SelectionSet} {stream : Stream} {words others : List Lexeme}

theorem leaf_complete {head : FieldHead} (fits : Phrase.fieldHead.Fits levels head words)
    (shows : stream.Shows (words ++ others)) (apart : Apart Phrase.selection.extensions others) :
    ∃ found rest, Gives (fieldSelection levels set) stream found rest ∧
      found.bare = .leaf head ∧ rest.Shows others := by
  have noBrace := apart .braceOpen (by decide)
  have within : ∀ kind ∈ Phrase.fieldHead.extensions, kind ∈ Phrase.selection.extensions := by
    decide
  rcases fieldHead_complete fits shows fun kind member => apart kind (within kind member) with
      ⟨names, _, values, _, marks, rest, atNames, atValues, atMarks, left, same⟩
  have noSet : Gives (ifAt .braceOpen set) rest none rest :=
    gives_ifAt.mpr (.inr ⟨left.not_at_mark rfl noBrace, rfl, rfl⟩)
  refine ⟨_, rest, (gives_current _).bind (atNames.bind (atValues.bind (atMarks.bind
    (noSet.bind ((gives_spanFrom _ _).bind (gives_return _)))))), ?_, left⟩
  rw [Selection.bare, same]

theorem branch_complete (complete : Complete .selectionSet levels set) {head : FieldHead}
    {tree : SelectionSet} {inner : List Lexeme} (fits : Phrase.fieldHead.Fits levels head words)
    (fitsSet : Phrase.selectionSet.Fits levels tree (Lexeme.braces inner))
    (shows : stream.Shows (words ++ (Lexeme.braces inner ++ others))) :
    ∃ found rest, Gives (fieldSelection levels set) stream found rest ∧
      found.bare = .branch head tree.selections (Span.empty 0) ∧ rest.Shows others := by
  rcases fieldHead_complete fits shows (apart_braces (by decide)) with
      ⟨names, _, values, _, marks, _, atNames, atValues, atMarks, left, same⟩
  have atBrace := left.kind_current
  rcases complete fitsSet left (apart_nil _) with ⟨found, rest, atSet, rfl, left⟩
  have someSet := gives_ifAt.mpr (.inl ⟨atBrace, found, atSet, rfl⟩)
  refine ⟨_, rest, (gives_current _).bind (atNames.bind (atValues.bind (atMarks.bind
    (someSet.bind ((gives_spanFrom _ _).bind (gives_return _)))))), ?_, left⟩
  rw [Selection.bare_branch, same]
  rfl

theorem inlineFragment_complete (complete : Complete .selectionSet levels set) (first : Token)
    (condition : Option Name) {directives : List Directive} {tree : SelectionSet}
    {inner : List Lexeme} (fits : Phrase.directives.Fits levels directives words)
    (fitsSet : Phrase.selectionSet.Fits levels tree (Lexeme.braces inner))
    (shows : stream.Shows (words ++ (Lexeme.braces inner ++ others))) :
    ∃ found rest, Gives (inlineFragment levels set first condition) stream found rest ∧
      found.bare = .inline ⟨condition.map Name.bare, directives, Span.empty 0, Location.start⟩
        tree.selections (Span.empty 0) ∧ rest.Shows others := by
  rcases directives_complete levels fits shows
    (apart_braces (by decide)) with
      ⟨marks, _, atMarks, rfl, left⟩
  rcases complete fitsSet left (apart_nil _) with ⟨found, rest, atSet, rfl, left⟩
  refine ⟨_, rest, atMarks.bind (atSet.bind ((gives_spanFrom _ _).bind (gives_return _))), ?_,
    left⟩
  rw [Selection.bare_inline]
  rfl

theorem inline_complete (complete : Complete .selectionSet levels set) (first : Token)
    {condition : Option String} {directives : List Directive} {tree : SelectionSet}
    {inner : List Lexeme} (fits : Phrase.directives.Fits levels directives words)
    (fitsSet : Phrase.selectionSet.Fits levels tree (Lexeme.braces inner))
    (shows : stream.Shows
      (Lexeme.typeCondition condition ++ (words ++ (Lexeme.braces inner ++ others)))) :
    ∃ found rest, Gives (fragmentSelection levels set first) stream found rest ∧
      found.bare = .inline ⟨condition.map Name.plain, directives, Span.empty 0, Location.start⟩
        tree.selections (Span.empty 0) ∧ rest.Shows others := by
  cases condition with
  | some condition =>
      have atOn : stream.current.kind = .name ∧ stream.current.text = "on" :=
        ⟨shows.kind_current, shows.text_current rfl⟩
      rcases shows.passed.gives_name with ⟨condition, rfl, atCondition⟩
      rcases inlineFragment_complete complete first
        (some condition) fits fitsSet shows.passed.passed with ⟨found, rest, atInline, same, left⟩
      refine ⟨found, rest, ?_, same, left⟩
      rw [fragmentSelection, gives_isAtKeyword_bind, if_pos (by simp [atOn])]
      exact gives_advance_bind.mpr (atCondition.bind atInline)
  | none =>
      -- Without a condition a directive or the braces come next, and neither is a name.
      have begins : stream.current.kind = .braceOpen ∨ stream.current.kind = .atSign := by
        cases fits.written with
        | nil => exact .inl shows.kind_current
        | cons written _ =>
            cases written
            exact .inr shows.kind_current
      rcases inlineFragment_complete complete first
        none fits fitsSet shows with ⟨found, rest, atInline, same, left⟩
      refine ⟨found, rest, ?_, same, left⟩
      have notName : stream.current.kind ≠ .name := by
        rcases begins with begins | begins <;> rw [begins] <;> nofun
      rw [fragmentSelection, gives_isAtKeyword_bind, if_neg (by simp [notName]),
        gives_isAt_bind, gives_isAt_bind, if_pos (by simpa using begins)]
      exact atInline

theorem spread_complete (first : Token) {label : String} {directives : List Directive}
    (free : label ≠ "on") (fits : Phrase.directives.Fits levels directives words)
    (shows : stream.Shows (.name label :: (words ++ others)))
    (apart : Apart Phrase.directives.extensions others) :
    ∃ found rest, Gives (fragmentSelection levels set first) stream found rest ∧
      found.bare = .spread ⟨Name.plain label, directives, Span.empty 0, Location.start⟩ ∧
      rest.Shows others := by
  have atName : stream.current.kind = .name := shows.kind_current
  have notOn : stream.current.text ≠ "on" := by rwa [shows.text_current rfl]
  rcases shows.gives_name with ⟨label, rfl, atLabel⟩
  rcases directives_complete levels fits shows.passed apart with ⟨marks, rest, atMarks, rfl, left⟩
  refine ⟨.spread ⟨label, marks, ⟨first.span.start, max rest.current.span.stop first.span.start⟩,
    first.location⟩, rest, ?_, rfl, left⟩
  rw [fragmentSelection, gives_isAtKeyword_bind, if_neg (by simp [notOn]), gives_isAt_bind,
    gives_isAt_bind, if_neg (by simp [atName])]
  exact atLabel.bind (atMarks.bind ((gives_spanFrom _ _).bind (gives_return _)))

theorem selection_complete (complete : Complete .selectionSet levels set) :
    Complete .selection levels (selection levels set) := by
  intro stream words others tree fits shows apart
  rcases fits with ⟨written, readable, shallow⟩
  cases written with
  | leaf written =>
      have noSpread := gives_no_spread written shows
      rcases leaf_complete ⟨written, readable, shallow⟩ shows apart with
          ⟨found, rest, gives, same, left⟩
      exact ⟨found, rest, (gives_current _).bind (noSpread.bind gives), same, left⟩
  | branch written occupied more =>
      rw [List.forall_mem_append] at readable
      simp only [Phrase.selection, Selection.nesting, Selection.nestingAll_eq, Nat.max_le]
        at shallow
      rw [List.append_assoc] at shows
      have noSpread := gives_no_spread written shows
      rcases branch_complete complete
        ⟨written, readable.1, shallow.1⟩ ⟨.intro occupied more, readable.2, shallow.2⟩ shows with
          ⟨found, rest, gives, same, left⟩
      exact ⟨found, rest, (gives_current _).bind (noSpread.bind gives), same, left⟩
  | spread written =>
      cases written with
      | intro label free marks =>
          have within : ∀ kind ∈ Phrase.directives.extensions,
              kind ∈ Phrase.selection.extensions := by decide
          rcases spread_complete stream.current free
            ⟨marks, by simpa using readable, shallow⟩ shows.passed
            fun kind member => apart kind (within kind member) with ⟨found, rest, gives, same, left⟩
          exact ⟨found, rest, (gives_current _).bind (shows.gives_accept.bind gives), same, left⟩
  | inline written occupied more =>
      cases written with
      | intro condition marks =>
          rw [List.forall_mem_cons] at readable
          simp only [List.forall_mem_append] at readable
          simp only [Phrase.selection, Selection.nesting, Selection.nestingAll_eq, Nat.max_le]
            at shallow
          simp only [List.cons_append, List.append_assoc] at shows
          rcases inline_complete complete stream.current
            ⟨marks, readable.2.1.2, shallow.1⟩ ⟨.intro occupied more, readable.2.2, shallow.2⟩
            shows.passed with ⟨found, rest, gives, same, left⟩
          exact ⟨found, rest, (gives_current _).bind (shows.gives_accept.bind gives), same, left⟩

end Selections

theorem chains_selection : Chains .selection fun token => token.kind != .braceClose := by
  apply chains_until rfl
  intro tree words written
  cases written with
  | leaf written =>
      rcases fieldHead_opens written with ⟨text, rest, rfl⟩
      exact ⟨_, _, rfl, by simp⟩
  | branch written _ _ =>
      rcases fieldHead_opens written with ⟨text, rest, rfl⟩
      exact ⟨_, _, rfl, by simp⟩
  | spread _ => exact ⟨_, _, rfl, by simp [Phrase.selection]⟩
  | inline _ _ _ => exact ⟨_, _, rfl, by simp [Phrase.selection]⟩

theorem selectionSet_complete (levels : Nat) :
    Complete .selectionSet levels (selectionSet levels) := by
  induction levels with
  | zero =>
      intro stream words others tree fits
      exact absurd fits.shallow (Nat.not_succ_le_zero _)
  | succ levels induction =>
      intro stream words others tree fits shows _
      rcases fits with ⟨written, readable, shallow⟩
      cases written with
      | intro occupied more =>
          rw [Lexeme.braces_append] at shows
          rw [Lexeme.readable_braces] at readable
          rcases someUntil_complete
            (selection_complete induction) chains_selection (by decide)
            ⟨more, readable, Nat.le_of_succ_le_succ shallow⟩ occupied shows.passed with
              ⟨selections, rest, gives, rfl, left⟩
          exact ⟨_, rest, (gives_current _).bind (shows.gives_expect.bind (gives.bind
            ((gives_spanFrom _ _).bind (gives_return _)))), rfl, left⟩

/-! ## Definitions -/

theorem chains_variableDefinition :
    Chains .variableDefinition fun token => token.kind != .parenClose := by
  apply chains_until rfl
  intro tree words written
  cases written <;> exact ⟨_, _, rfl, by simp [Phrase.variableDefinition]⟩

theorem variableDefinition_complete (levels : Nat) :
    Complete .variableDefinition levels (variableDefinition levels) := by
  intro stream words others tree fits shows apart
  rcases apart_cons.mp apart with ⟨noBang, apart⟩
  rcases apart_cons.mp apart with ⟨noEquals, _⟩
  rcases fits with ⟨written, readable, shallow⟩
  rcases Nat.max_le.mp shallow with ⟨shallowType, shallowDefault⟩
  cases written with
  | required label written =>
      simp only [List.forall_mem_cons] at readable
      have atDollar := shows.gives_expect
      rcases shows.passed.gives_name with ⟨label, rfl, atLabel⟩
      have atColon := shows.passed.passed.gives_expect
      rcases typeNode_complete levels
        ⟨written, readable.2.2.2, shallowType⟩ shows.passed.passed.passed
        (apart_cons.mpr ⟨noBang, apart_nil _⟩) with ⟨type, between, atType, rfl, left⟩
      have noDefault : Gives (ifAfter .equals (literal true levels)) between none between :=
        gives_ifAfter.mpr (.inr ⟨left.not_at_mark rfl noEquals, rfl, rfl⟩)
      exact ⟨_, between, (gives_current _).bind (atDollar.bind (atLabel.bind (atColon.bind
        (atType.bind (noDefault.bind ((gives_spanFrom _ _).bind (gives_return _))))))), rfl, left⟩
  | defaulted label written value =>
      simp only [List.forall_mem_cons, List.forall_mem_append] at readable
      simp only [List.cons_append, List.append_assoc] at shows
      have atDollar := shows.gives_expect
      rcases shows.passed.gives_name with ⟨label, rfl, atLabel⟩
      have atColon := shows.passed.passed.gives_expect
      rcases typeNode_complete levels
        ⟨written, readable.2.2.2.1, shallowType⟩ shows.passed.passed.passed
        (apart_mark (by decide)) with ⟨type, between, atType, rfl, left⟩
      rcases literal_complete true levels
        ⟨value, readable.2.2.2.2.2, shallowDefault⟩ left.passed (apart_nil _) with
          ⟨default, rest, atValue, rfl, more⟩
      have someDefault := gives_ifAfter.mpr (.inl ⟨left.kind_current, default, atValue, rfl⟩)
      exact ⟨_, rest, (gives_current _).bind (atDollar.bind (atLabel.bind (atColon.bind
        (atType.bind (someDefault.bind ((gives_spanFrom _ _).bind (gives_return _))))))), rfl, more⟩

theorem variableDefinitions_complete (levels : Nat) :
    Complete Phrase.variableDefinition.parenthesized levels (variableDefinitions levels) :=
  parenthesized_complete (variableDefinition_complete levels) chains_variableDefinition (by decide)

theorem operationLabel_complete {label : Option String} {stream : Stream} {others : List Lexeme}
    (shows : stream.Shows (label.toList.map .name ++ others))
    (elsewhere : ∀ text, others.head? ≠ some (.name text)) :
    ∃ found rest, Gives (ifAt .name name) stream found rest ∧
      found.map Name.bare = label.map Name.plain ∧ rest.Shows others := by
  cases label with
  | some label =>
      rcases shows.gives_name with ⟨label, rfl, atLabel⟩
      exact ⟨some label, _, gives_ifAt.mpr (.inl ⟨shows.kind_current, label, atLabel, rfl⟩), rfl,
        shows.passed⟩
  | none =>
      refine ⟨none, stream, gives_ifAt.mpr (.inr ⟨?_, rfl, rfl⟩), rfl, shows⟩
      exact shows.not_at_name elsewhere

section Definitions

variable {levels : Nat} {stream : Stream} {others : List Lexeme} {set : SelectionSet}
  {directives : List Directive} {marked inner : List Lexeme}

theorem shorthandQuery_complete (fits : Phrase.selectionSet.Fits levels set (Lexeme.braces inner))
    (shows : stream.Shows (Lexeme.braces inner ++ others)) :
    ∃ found rest, Gives (shorthandQuery levels) stream found rest ∧
      found.bare = ⟨.query, none, [], [], set, Span.empty 0, Location.start⟩ ∧
      rest.Shows others := by
  rcases selectionSet_complete levels fits shows (apart_nil _) with ⟨set, rest, atSet, rfl, left⟩
  exact ⟨_, rest, (gives_current _).bind (atSet.bind ((gives_spanFrom _ _).bind
    (gives_return _))), rfl, left⟩

theorem operation_complete {kind : OperationKind} {label : Option String}
    {definitions : List VariableDefinition} {declared : List Lexeme}
    (fitsVariables :
      Phrase.variableDefinition.parenthesized.Fits levels definitions declared)
    (fitsMarks : Phrase.directives.Fits levels directives marked)
    (fits : Phrase.selectionSet.Fits levels set (Lexeme.braces inner))
    (shows : stream.Shows (.name kind.keyword :: (label.toList.map .name ++
      (declared ++ (marked ++ (Lexeme.braces inner ++ others)))))) :
    ∃ found rest, Gives (operation levels kind) stream found rest ∧
      found.bare = ⟨kind, label.map Name.plain, definitions, directives, set, Span.empty 0,
        Location.start⟩ ∧ rest.Shows others := by
  have notName (text : String) : (declared ++ (marked ++ (Lexeme.braces inner ++ others))).head? ≠
      some (.name text) :=
    parenthesized_elsewhere fitsVariables.written
      (directives_elsewhere fitsMarks.written (by simp [Lexeme.braces]) (by simp)) (by simp)
  have notParen : (marked ++ (Lexeme.braces inner ++ others)).head? ≠ some (.mark .parenOpen) :=
    directives_elsewhere fitsMarks.written (by simp [Lexeme.braces]) (by decide)
  rcases operationLabel_complete shows.passed notName with ⟨label, _, atLabel, sameLabel, left⟩
  rcases variableDefinitions_complete levels fitsVariables left
      (apart_cons.mpr ⟨notParen, apart_nil _⟩) with
      ⟨bindings, _, atVariables, rfl, left⟩
  rcases directives_complete levels fitsMarks left
    (apart_braces (by decide)) with
      ⟨marks, _, atMarks, rfl, left⟩
  rcases selectionSet_complete levels fits left (apart_nil _) with ⟨set, rest, atSet, rfl, left⟩
  refine ⟨_, rest, (gives_current _).bind (gives_advance_bind.mpr (atLabel.bind
    (atVariables.bind (atMarks.bind (atSet.bind ((gives_spanFrom _ _).bind
      (gives_return _))))))), ?_, left⟩
  rw [← sameLabel]
  rfl

theorem fragment_complete {label condition : String} (free : label ≠ "on")
    (fitsMarks : Phrase.directives.Fits levels directives marked)
    (fits : Phrase.selectionSet.Fits levels set (Lexeme.braces inner))
    (shows : stream.Shows (.name "fragment" :: .name label :: .name "on" :: .name condition ::
      (marked ++ (Lexeme.braces inner ++ others)))) :
    ∃ found rest, Gives (fragment levels) stream found rest ∧
      found.bare = ⟨Name.plain label, Name.plain condition, directives, set, Span.empty 0,
        Location.start⟩ ∧ rest.Shows others := by
  have atFragment := shows.gives_expectKeyword
  have notOn := shows.passed.gives_no_keyword free
  rcases shows.passed.gives_name with ⟨label, rfl, atLabel⟩
  have atOn := shows.passed.passed.gives_expectKeyword
  rcases shows.passed.passed.passed.gives_name with ⟨condition, rfl, atCondition⟩
  rcases directives_complete levels fitsMarks
    shows.passed.passed.passed.passed
    (apart_braces (by decide)) with
      ⟨marks, _, atMarks, rfl, left⟩
  rcases selectionSet_complete levels fits left (apart_nil _) with ⟨set, rest, atSet, rfl, left⟩
  exact ⟨_, rest, (gives_current _).bind (atFragment.bind (notOn.bind (atLabel.bind (atOn.bind
    (atCondition.bind (atMarks.bind (atSet.bind ((gives_spanFrom _ _).bind
      (gives_return _))))))))), rfl, left⟩

end Definitions

theorem definition_complete (levels : Nat) : Complete .definition levels (definition levels) := by
  intro stream words others tree fits shows _
  rcases fits with ⟨written, readable, shallow⟩
  cases written with
  | operation written =>
      rcases Nat.max_le.mp shallow with ⟨shallowVariables, shallow⟩
      rcases Nat.max_le.mp shallow with ⟨shallowMarks, shallow⟩
      cases written with
      | shorthand written =>
          rcases written.selections with ⟨inner, rfl, _, _⟩
          have atBrace : stream.current.kind = .braceOpen := shows.kind_current
          rcases shorthandQuery_complete ⟨written, readable, shallow⟩ shows with
              ⟨query, rest, atQuery, same, left⟩
          refine ⟨.operation query, rest, ?_, congrArg Definition.operation same, left⟩
          simp only [definition, gives_current_bind, atBrace]
          exact gives_map.mpr ⟨query, atQuery, rfl⟩
      | full kind label bindings marks written =>
          rcases written.selections with ⟨inner, rfl, _, _⟩
          have atName : stream.current.kind = .name := shows.kind_current
          have atKeyword := OperationKind.ofKeyword?_eq_some.mpr (shows.text_current rfl)
          simp only [List.forall_mem_cons, List.forall_mem_append] at readable
          rcases readable with ⟨_, _, readableVariables, readableMarks, readable⟩
          simp only [List.cons_append, List.append_assoc] at shows
          rcases operation_complete
            ⟨bindings, readableVariables, shallowVariables⟩
            ⟨marks, readableMarks, shallowMarks⟩ ⟨written, readable, shallow⟩ shows with
              ⟨operation, rest, atOperation, same, left⟩
          refine ⟨.operation operation, rest, ?_, congrArg Definition.operation same, left⟩
          simp only [definition, gives_current_bind, atName, atKeyword]
          exact gives_map.mpr ⟨operation, atOperation, rfl⟩
  | fragment written =>
      rcases Nat.max_le.mp shallow with ⟨shallowMarks, shallow⟩
      cases written with
      | intro label condition free marks written =>
          rcases written.selections with ⟨inner, rfl, _, _⟩
          have atName : stream.current.kind = .name := shows.kind_current
          have atKeyword : stream.current.text = "fragment" := shows.text_current rfl
          have noOperation : OperationKind.ofKeyword? stream.current.text = none := by
            rw [atKeyword]
            rfl
          simp only [List.forall_mem_cons, List.forall_mem_append] at readable
          rcases readable with ⟨_, _, _, _, readableMarks, readable⟩
          simp only [List.cons_append, List.append_assoc] at shows
          rcases fragment_complete free
            ⟨marks, readableMarks, shallowMarks⟩ ⟨written, readable, shallow⟩ shows with
              ⟨fragment, rest, atFragment, same, left⟩
          refine ⟨.fragment fragment, rest, ?_, congrArg Definition.fragment same, left⟩
          simp only [definition, gives_current_bind, atName, noOperation, if_pos atKeyword]
          exact gives_map.mpr ⟨fragment, atFragment, rfl⟩

end GraphQuery.Parser
