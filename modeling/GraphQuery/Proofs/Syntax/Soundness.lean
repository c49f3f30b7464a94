import GraphQuery.Proofs.Syntax.Reading

namespace GraphQuery.Parser

/-! Every tree that a parser gives is written by the lexemes that it took. -/

/-- What the parser gives, without its places, fits the lexemes it takes. -/
def Sound {α : Type} (phrase : Phrase α) (levels : Nat) (parser : Parser α) : Prop :=
  ∀ ⦃stream rest : Stream⦄ ⦃words : List Lexeme⦄ ⦃found : α⦄, stream.Shows words →
    Gives parser stream found rest →
    ∃ taken others, words = taken ++ others ∧ rest.Shows others ∧
      phrase.Fits levels (phrase.bare found) taken

/-! ## Single tokens -/

namespace Stream.Shows

variable {α : Type} {stream rest : Stream} {words : List Lexeme} {kind : Token.Kind} {found : α}

theorem of_mark (shows : stream.Shows words) (punctuator : kind.isPunctuator = true)
    (here : stream.current.kind = kind) :
    ∃ others, words = .mark kind :: others ∧ stream.passed.Shows others := by
  have notEnd : stream.current.kind ≠ .endOfInput := by
    rw [here]
    rintro rfl
    cases punctuator
  rcases shows.eq_cons notEnd with ⟨others, rfl, left⟩
  exact ⟨others, by rw [(Token.lexeme_eq_mark punctuator).mpr here], left⟩

theorem of_nameToken (shows : stream.Shows words) (here : stream.current.kind = .name) :
    ∃ others, words = .name stream.current.text :: others ∧ stream.passed.Shows others := by
  rcases shows.eq_cons (by rw [here]; simp) with ⟨others, rfl, left⟩
  exact ⟨others, by rw [Token.lexeme_eq_name.mpr ⟨here, rfl⟩], left⟩

theorem of_expect {next : Unit → Parser α} (shows : stream.Shows words)
    (punctuator : kind.isPunctuator = true)
    (gives : Gives (expect kind >>= next) stream found rest) :
    ∃ others, words = .mark kind :: others ∧ stream.passed.Shows others ∧
      Gives (next ()) stream.passed found rest := by
  rcases gives_expect_bind.mp gives with ⟨here, gives⟩
  rcases shows.of_mark punctuator here with ⟨others, rfl, left⟩
  exact ⟨others, rfl, left, gives⟩

theorem of_accept {next : Bool → Parser α} (shows : stream.Shows words)
    (punctuator : kind.isPunctuator = true)
    (gives : Gives (accept kind >>= next) stream found rest) :
    (∃ others, words = .mark kind :: others ∧ stream.passed.Shows others ∧
      Gives (next true) stream.passed found rest) ∨ Gives (next false) stream found rest := by
  rcases gives_accept_bind.mp gives with ⟨here, gives⟩ | ⟨_, gives⟩
  · rcases shows.of_mark punctuator here with ⟨others, rfl, left⟩
    exact .inl ⟨others, rfl, left, gives⟩
  · exact .inr gives

theorem of_name {next : Name → Parser α} (shows : stream.Shows words)
    (gives : Gives (name >>= next) stream found rest) :
    ∃ label others, words = .name label.text :: others ∧ stream.passed.Shows others ∧
      Gives (next label) stream.passed found rest := by
  rcases gives_name_bind.mp gives with ⟨here, gives⟩
  rcases shows.of_nameToken here with ⟨others, rfl, left⟩
  exact ⟨_, others, rfl, left, gives⟩

theorem of_expectKeyword {next : Unit → Parser α} {word : String} (shows : stream.Shows words)
    (gives : Gives (expectKeyword word >>= next) stream found rest) :
    ∃ others, words = .name word :: others ∧ stream.passed.Shows others ∧
      Gives (next ()) stream.passed found rest := by
  rcases gives_expectKeyword_bind.mp gives with ⟨⟨here, same⟩, gives⟩
  rcases shows.of_nameToken here with ⟨others, rfl, left⟩
  exact ⟨others, by rw [same], left, gives⟩

end Stream.Shows

/-! ## Repetition -/

section Repetition

variable {α : Type} {phrase : Phrase α} {levels : Nat} {item : Parser α}

theorem repeatedly_sound (sound : Sound phrase levels item) (here : Token → Bool)
    (extensions : List Token.Kind) (bound : Nat) :
    Sound (phrase.sequence extensions) levels (repeatedly here item bound) := by
  induction bound with
  | zero =>
      intro stream rest words found shows gives
      rcases gives_pure.mp gives with ⟨rfl, rfl⟩
      exact ⟨[], words, rfl, shows, .nil⟩
  | succ bound induction =>
      intro stream rest words found shows gives
      rw [repeatedly, gives_current_bind] at gives
      split at gives
      · rcases gives_bind.mp gives with ⟨first, between, atFirst, gives⟩
        rcases gives_bind.mp gives with ⟨others, last, atOthers, gives⟩
        rcases gives_pure.mp gives with ⟨rfl, rfl⟩
        rcases sound shows atFirst with ⟨taken, left, rfl, shows, fits⟩
        rcases induction shows atOthers with ⟨more, left, rfl, shows, others⟩
        exact ⟨taken ++ more, left, by rw [List.append_assoc], shows, fits.cons others⟩
      · rcases gives_pure.mp gives with ⟨rfl, rfl⟩
        exact ⟨[], words, rfl, shows, .nil⟩

theorem many_sound (sound : Sound phrase levels item) (here : Token → Bool)
    (extensions : List Token.Kind) :
    Sound (phrase.sequence extensions) levels (many here item) :=
  fun _ _ _ _ shows gives => repeatedly_sound sound here extensions _ shows gives

variable {stream rest : Stream} {words : List Lexeme} {found : List α} {closing : Token.Kind}

theorem manyUntil_sound (sound : Sound phrase levels item)
    (punctuator : closing.isPunctuator = true) (shows : stream.Shows words)
    (gives : Gives (manyUntil closing item) stream found rest) :
    ∃ taken others, words = taken ++ .mark closing :: others ∧ rest.Shows others ∧
      (phrase.sequence []).Fits levels (found.map phrase.bare) taken := by
  rcases gives_bind.mp gives with ⟨items, between, atItems, gives⟩
  rcases many_sound sound _ [] shows atItems with ⟨taken, left, rfl, shows, fits⟩
  rcases shows.of_expect punctuator gives with ⟨others, rfl, shows, gives⟩
  rcases gives_pure.mp gives with ⟨rfl, rfl⟩
  exact ⟨taken, others, rfl, shows, fits⟩

theorem someUntil_sound (sound : Sound phrase levels item)
    (punctuator : closing.isPunctuator = true) (shows : stream.Shows words)
    (gives : Gives (someUntil closing item) stream found rest) :
    ∃ taken others, words = taken ++ .mark closing :: others ∧ rest.Shows others ∧
      (phrase.sequence []).Fits levels (found.map phrase.bare) taken ∧
      found.map phrase.bare ≠ [] := by
  rcases gives_bind.mp gives with ⟨first, between, atFirst, gives⟩
  rcases gives_bind.mp gives with ⟨items, last, atItems, gives⟩
  rcases gives_pure.mp gives with ⟨rfl, rfl⟩
  rcases sound shows atFirst with ⟨taken, left, rfl, shows, fits⟩
  rcases manyUntil_sound sound punctuator shows atItems with ⟨more, others, rfl, shows, rest⟩
  exact ⟨taken ++ more, others, by rw [List.append_assoc], shows, fits.cons rest, nofun⟩

end Repetition

/-! ## Literals -/

theorem keywordLiteral_written (constant : Bool) (text : String) :
    Literal.Written constant (keywordLiteral text).bare [.name text] := by
  unfold keywordLiteral
  split
  · exact .true
  · exact .false
  · exact .null
  · next notTrue notFalse notNull => exact .symbol text ⟨notTrue, notFalse, notNull⟩

theorem objectField_sound {constant : Bool} {levels : Nat} {value : Parser Literal}
    (sound : Sound (.literal constant) levels value) :
    Sound (.literalField constant) levels (objectField value) := by
  intro stream rest words found shows gives
  rcases shows.of_name gives with ⟨key, others, rfl, shows, gives⟩
  rcases shows.of_expect rfl gives with ⟨others, rfl, shows, gives⟩
  rcases gives_bind.mp gives with ⟨held, between, atHeld, gives⟩
  rcases gives_pure.mp gives with ⟨rfl, rfl⟩
  rcases sound shows atHeld with ⟨taken, others, rfl, shows, fits⟩
  refine ⟨_ :: _ :: taken, others, rfl, shows, .intro _ fits.written, ?_, fits.shallow⟩
  simpa using fits.readable

section Literals

variable {constant : Bool} {levels : Nat} {inner? : Option (Parser Literal)}
  {stream rest : Stream} {words : List Lexeme} {found : Literal}

theorem Stream.Shows.fits_current (shows : stream.Shows words)
    (notEnd : stream.current.kind ≠ .endOfInput)
    (written : found.Written constant [stream.current.lexeme])
    (readable : stream.current.lexeme.Readable) (flat : found.nesting = 0) :
    ∃ taken others, words = taken ++ others ∧ stream.passed.Shows others ∧
      (Phrase.literal constant).Fits levels found taken := by
  rcases shows.eq_cons notEnd with ⟨others, rfl, left⟩
  have shallow : found.nesting ≤ levels := by omega
  exact ⟨[_], others, rfl, left, written, by simpa using readable, shallow⟩

theorem listLiteral_sound {inner : Parser Literal} (sound : Sound (.literal constant) levels inner)
    (shows : stream.Shows words) (atBracket : stream.current.kind = .bracketOpen)
    (gives : Gives (manyUntil .bracketClose inner >>= fun items => pure (.list items))
      stream.passed found rest) :
    ∃ taken others, words = taken ++ others ∧ rest.Shows others ∧
      (Phrase.literal constant).Fits (levels + 1) found.bare taken := by
  rcases shows.of_mark rfl atBracket with ⟨others, rfl, left⟩
  rcases gives_bind.mp gives with ⟨items, between, atItems, gives⟩
  rcases gives_pure.mp gives with ⟨rfl, rfl⟩
  rcases manyUntil_sound sound rfl left atItems with ⟨taken, others, rfl, left, fits⟩
  refine ⟨Lexeme.brackets taken, others, (Lexeme.brackets_append _ _).symm, left, ?_⟩
  rw [Literal.bare_list]
  exact fits.list

theorem objectLiteral_sound {inner : Parser Literal}
    (sound : Sound (.literal constant) levels inner) (shows : stream.Shows words)
    (atBrace : stream.current.kind = .braceOpen)
    (gives : Gives
      (manyUntil .braceClose (objectField inner) >>= fun fields => pure (.object fields))
      stream.passed found rest) :
    ∃ taken others, words = taken ++ others ∧ rest.Shows others ∧
      (Phrase.literal constant).Fits (levels + 1) found.bare taken := by
  rcases shows.of_mark rfl atBrace with ⟨others, rfl, left⟩
  rcases gives_bind.mp gives with ⟨fields, between, atFields, gives⟩
  rcases gives_pure.mp gives with ⟨rfl, rfl⟩
  rcases manyUntil_sound (objectField_sound sound) rfl left atFields with
      ⟨taken, others, rfl, left, fits⟩
  refine ⟨Lexeme.braces taken, others, (Lexeme.braces_append _ _).symm, left, ?_⟩
  rw [Literal.bare_object]
  exact fits.object

theorem literalWith_sound
    (sound : ∀ inner ∈ inner?, ∃ less, levels = less + 1 ∧ Sound (.literal constant) less inner) :
    Sound (.literal constant) levels (literalWith constant inner?) := by
  intro stream rest words found shows gives
  unfold literalWith at gives
  rw [gives_current_bind] at gives
  split at gives
  next atDollar =>
    split at gives
    · exact absurd gives not_gives_expected
    next free =>
      rcases shows.of_mark rfl atDollar with ⟨others, rfl, left⟩
      rw [gives_advance_bind] at gives
      rcases left.of_name gives with ⟨label, others, rfl, left, gives⟩
      rcases gives_pure.mp gives with ⟨rfl, rfl⟩
      refine ⟨[.mark .dollar, .name label.text], others, rfl, left, ?_, ?_, Nat.zero_le _⟩
      · exact .reference _ (by simpa using free)
      · simp
  next atInt =>
    simp only at gives
    split at gives
    next fits =>
      rcases gives_pure.mp gives with ⟨rfl, rfl⟩
      have lexeme : stream.current.lexeme = .int stream.current.text := by
        simp [Token.lexeme, atInt]
      exact shows.fits_current (by simp [atInt]) (lexeme ▸ .int _) (lexeme ▸ fits) rfl
    · exact absurd gives not_gives_fail
  next atFloat =>
    rcases gives_pure.mp gives with ⟨rfl, rfl⟩
    have lexeme : stream.current.lexeme = .float stream.current.text := by
      simp [Token.lexeme, atFloat]
    exact shows.fits_current (by simp [atFloat]) (lexeme ▸ .float _) (lexeme ▸ trivial) rfl
  next atString =>
    split at gives
    next value unescaped =>
      rcases gives_pure.mp gives with ⟨rfl, rfl⟩
      have lexeme : stream.current.lexeme = .string stream.current.text := by
        simp [Token.lexeme, atString]
      have written : Literal.Written constant _ _ := .string stream.current.text
      rw [Literal.stringOfText, unescaped, Option.getD_some] at written
      refine shows.fits_current (by simp [atString]) (lexeme ▸ written) ?_ rfl
      simp [lexeme, Lexeme.Readable, unescaped]
    · exact absurd gives not_gives_fail
  next atBlock =>
    rcases gives_pure.mp gives with ⟨rfl, rfl⟩
    have lexeme : stream.current.lexeme = .blockString stream.current.text := by
      simp [Token.lexeme, atBlock]
    exact shows.fits_current (by simp [atBlock]) (lexeme ▸ .blockString _) (lexeme ▸ trivial) rfl
  next atBracket =>
    rw [gives_advance_bind] at gives
    split at gives
    next inner =>
      rcases sound inner rfl with ⟨less, rfl, soundInner⟩
      exact listLiteral_sound soundInner shows atBracket gives
    · exact absurd gives not_gives_fail
  next atBrace =>
    rw [gives_advance_bind] at gives
    split at gives
    next inner =>
      rcases sound inner rfl with ⟨less, rfl, soundInner⟩
      exact objectLiteral_sound soundInner shows atBrace gives
    · exact absurd gives not_gives_fail
  next atName =>
    rcases gives_pure.mp gives with ⟨rfl, rfl⟩
    have lexeme : stream.current.lexeme = .name stream.current.text := by
      simp [Token.lexeme, atName]
    have written := keywordLiteral_written constant stream.current.text
    refine shows.fits_current (by simp [atName]) (lexeme ▸ written) (lexeme ▸ trivial) ?_
    unfold keywordLiteral
    split <;> rfl
  · exact absurd gives not_gives_expected

end Literals

theorem literal_sound (constant : Bool) (levels : Nat) :
    Sound (.literal constant) levels (literal constant levels) := by
  induction levels with
  | zero => exact literalWith_sound nofun
  | succ levels induction =>
      apply literalWith_sound
      rintro _ ⟨⟩
      exact ⟨levels, rfl, induction⟩

/-! ## Types -/

theorem nullableType_sound {levels : Nat} {inner? : Option (Parser TypeNode)}
    (sound : ∀ inner ∈ inner?, ∃ less, levels = less + 1 ∧ Sound .typeNode less inner)
    {stream rest : Stream} {words : List Lexeme} {found : TypeNode} (shows : stream.Shows words)
    (gives : Gives (nullableType inner?) stream found rest) :
    ∃ taken others, words = taken ++ others ∧ rest.Shows others ∧
      Phrase.typeNode.Fits levels found.bare taken ∧ found.bare.isNonNull = false := by
  rcases shows.of_accept rfl gives with ⟨others, rfl, left, gives⟩ | gives
  · rw [if_pos rfl] at gives
    cases inner? with
    | none => exact absurd gives not_gives_fail
    | some inner =>
      rcases sound inner rfl with ⟨less, rfl, soundInner⟩
      rcases gives_bind.mp gives with ⟨item, between, atItem, gives⟩
      rcases soundInner left atItem with ⟨taken, others, rfl, shows, fits⟩
      rcases shows.of_expect rfl gives with ⟨others, rfl, shows, gives⟩
      rcases gives_pure.mp gives with ⟨rfl, rfl⟩
      exact ⟨Lexeme.brackets taken, others, (Lexeme.brackets_append _ _).symm, shows,
        fits.listType, rfl⟩
  · rw [if_neg Bool.false_ne_true] at gives
    rcases shows.of_name gives with ⟨label, others, rfl, shows, gives⟩
    rcases gives_pure.mp gives with ⟨rfl, rfl⟩
    exact ⟨[_], others, rfl, shows, ⟨.named _, by simp, Nat.zero_le _⟩, rfl⟩

theorem typeNodeWith_sound {levels : Nat} {inner? : Option (Parser TypeNode)}
    (sound : ∀ inner ∈ inner?, ∃ less, levels = less + 1 ∧ Sound .typeNode less inner) :
    Sound .typeNode levels (typeNodeWith inner?) := by
  intro stream rest words found shows gives
  rcases gives_bind.mp gives with ⟨type, between, atType, gives⟩
  rcases nullableType_sound sound shows atType with ⟨taken, others, rfl, shows, fits, nullable⟩
  rcases shows.of_accept rfl gives with ⟨others, rfl, left, gives⟩ | gives
  · rcases gives_pure.mp gives with ⟨rfl, rfl⟩
    refine ⟨taken ++ [.mark .bang], others, by simp, left, ?_⟩
    exact fits.nonNullType nullable
  · rcases gives_pure.mp gives with ⟨rfl, rfl⟩
    exact ⟨taken, others, rfl, shows, fits⟩

theorem typeNode_sound (levels : Nat) : Sound .typeNode levels (typeNode levels) := by
  induction levels with
  | zero => exact typeNodeWith_sound nofun
  | succ levels induction =>
      apply typeNodeWith_sound
      rintro _ ⟨⟩
      exact ⟨levels, rfl, induction⟩

/-! ## Arguments and directives -/

theorem argument_sound (levels : Nat) : Sound .argument levels (argument levels) := by
  intro stream rest words found shows gives
  rw [argument, gives_current_bind] at gives
  rcases shows.of_name gives with ⟨key, others, rfl, shows, gives⟩
  rcases shows.of_expect rfl gives with ⟨others, rfl, shows, gives⟩
  rcases gives_bind.mp gives with ⟨value, between, atValue, gives⟩
  rcases literal_sound false levels shows atValue with ⟨taken, others, rfl, shows, fits⟩
  rw [gives_spanFrom_bind] at gives
  rcases gives_pure.mp gives with ⟨rfl, rfl⟩
  refine ⟨_ :: _ :: taken, others, rfl, shows, .intro _ fits.written, ?_, fits.shallow⟩
  simpa using fits.readable

theorem parenthesized_sound {α : Type} {phrase : Phrase α} {levels : Nat} {item : Parser α}
    (sound : Sound phrase levels item) {stream rest : Stream} {words : List Lexeme}
    {found : List α} (shows : stream.Shows words)
    (gives : Gives (accept .parenOpen >>= fun opened =>
      if opened = true then someUntil .parenClose item else pure []) stream found rest) :
    ∃ taken others, words = taken ++ others ∧ rest.Shows others ∧
      phrase.parenthesized.Fits levels (found.map phrase.bare) taken := by
  rcases shows.of_accept rfl gives with ⟨others, rfl, left, gives⟩ | gives
  · rcases someUntil_sound sound rfl left gives with ⟨taken, others, rfl, shows, fits, occupied⟩
    exact ⟨Lexeme.parentheses taken, others, (Lexeme.parentheses_append _ _).symm, shows,
      fits.enclosed occupied⟩
  · rcases gives_pure.mp gives with ⟨rfl, rfl⟩
    exact ⟨[], words, rfl, shows, .none, nofun, Nat.zero_le _⟩

theorem arguments_sound (levels : Nat) :
    Sound Phrase.argument.parenthesized levels (arguments levels) :=
  fun _ _ _ _ shows gives => parenthesized_sound (argument_sound levels) shows gives

theorem directive_sound (levels : Nat) : Sound .directive levels (directive levels) := by
  intro stream rest words found shows gives
  rw [directive, gives_current_bind] at gives
  rcases shows.of_expect rfl gives with ⟨others, rfl, shows, gives⟩
  rcases shows.of_name gives with ⟨label, others, rfl, shows, gives⟩
  rcases gives_bind.mp gives with ⟨values, between, atValues, gives⟩
  rcases arguments_sound levels shows atValues with ⟨taken, others, rfl, shows, fits⟩
  rw [gives_spanFrom_bind] at gives
  rcases gives_pure.mp gives with ⟨rfl, rfl⟩
  refine ⟨_ :: _ :: taken, others, rfl, shows, .intro _ fits.written, ?_, fits.shallow⟩
  simpa using fits.readable

theorem directives_sound (levels : Nat) : Sound .directives levels (directives levels) :=
  many_sound (directive_sound levels) _ _

/-! ## Selections -/

theorem fieldNames_sound {stream rest : Stream} {words : List Lexeme}
    {found : Option Name × Name} (shows : stream.Shows words)
    (gives : Gives fieldNames stream found rest) :
    ∃ others, words = Lexeme.labelled (found.1.map Name.text) found.2.text ++ others ∧
      rest.Shows others := by
  rcases shows.of_name gives with ⟨first, others, rfl, left, gives⟩
  rcases left.of_accept rfl gives with ⟨others, rfl, left, gives⟩ | gives
  · rw [if_pos rfl] at gives
    rcases left.of_name gives with ⟨second, others, rfl, left, gives⟩
    rcases gives_pure.mp gives with ⟨rfl, rfl⟩
    exact ⟨others, rfl, left⟩
  · rw [if_neg Bool.false_ne_true] at gives
    rcases gives_pure.mp gives with ⟨rfl, rfl⟩
    exact ⟨others, rfl, left⟩

section Selections

variable {levels : Nat} {set : Parser SelectionSet}

theorem fieldHead_fits (label : Option Name) (key : Name) (span : Span) (location : Location)
    {arguments : List Argument} {directives : List Directive} {valued marked : List Lexeme}
    (values : Phrase.argument.parenthesized.Fits levels (arguments.map Argument.bare) valued)
    (marks : Phrase.directives.Fits levels (directives.map Directive.bare) marked) :
    Phrase.fieldHead.Fits levels
      (FieldHead.bare ⟨label, key, arguments, directives, span, location⟩)
      (Lexeme.labelled (label.map Name.text) key.text ++ (valued ++ marked)) := by
  have written := FieldHead.Written.intro (label.map Name.text) key.text
    values.written marks.written
  rw [Option.map_map] at written
  have readable := List.forall_mem_append.mpr ⟨values.readable, marks.readable⟩
  exact ⟨written, List.forall_mem_append.mpr ⟨Lexeme.readable_labelled _ _, readable⟩,
    Nat.max_le.mpr ⟨values.shallow, marks.shallow⟩⟩

theorem fieldSelection_sound (sound : Sound .selectionSet levels set) :
    Sound .selection levels (fieldSelection levels set) := by
  intro stream rest words found shows gives
  rw [fieldSelection, gives_current_bind] at gives
  rcases gives_bind.mp gives with ⟨⟨label, key⟩, afterNames, atNames, gives⟩
  rcases gives_bind.mp gives with ⟨values, afterValues, atValues, gives⟩
  rcases gives_bind.mp gives with ⟨marks, afterMarks, atMarks, gives⟩
  rcases gives_bind.mp gives with ⟨set?, afterSet, atSet, atHead⟩
  rw [gives_spanFrom_bind] at atHead
  rcases fieldNames_sound shows atNames with ⟨others, rfl, left⟩
  rcases arguments_sound levels left atValues with ⟨valued, others, rfl, left, fitsValues⟩
  rcases directives_sound levels left atMarks with ⟨marked, others, rfl, left, fitsMarks⟩
  have fits := fun span location =>
    fieldHead_fits label key span location fitsValues fitsMarks
  rcases gives_ifAt.mp atSet with ⟨_, inner, atInner, rfl⟩ | ⟨_, rfl, rfl⟩
  · rcases gives_pure.mp atHead with ⟨rfl, rfl⟩
    rcases sound left atInner with ⟨braced, others, rfl, left, fitsInner⟩
    refine ⟨_, others, ?_, left, (fits _ _).branch fitsInner⟩
    simp only [List.append_assoc]
  · rcases gives_pure.mp atHead with ⟨rfl, rfl⟩
    refine ⟨_, others, ?_, left, (fits _ _).leaf⟩
    simp only [List.append_assoc]

theorem inlineHead_fits (condition : Option Name) (span : Span) (location : Location)
    {directives : List Directive} {marked : List Lexeme}
    (marks : Phrase.directives.Fits levels (directives.map Directive.bare) marked) :
    Phrase.inlineHead.Fits levels (InlineHead.bare ⟨condition, directives, span, location⟩)
      (Lexeme.typeCondition (condition.map Name.text) ++ marked) := by
  have written := InlineHead.Written.intro (condition.map Name.text) marks.written
  rw [Option.map_map] at written
  exact ⟨written, List.forall_mem_append.mpr ⟨Lexeme.readable_typeCondition _, marks.readable⟩,
    marks.shallow⟩

theorem inlineFragment_sound (sound : Sound .selectionSet levels set) {first : Token}
    {condition : Option Name} {stream rest : Stream} {words : List Lexeme} {found : Selection}
    (shows : stream.Shows words)
    (gives : Gives (inlineFragment levels set first condition) stream found rest) :
    ∃ taken others, words = taken ++ others ∧ rest.Shows others ∧
      Phrase.selection.Fits levels found.bare
        (.mark .spread :: (Lexeme.typeCondition (condition.map Name.text) ++ taken)) := by
  rcases gives_bind.mp gives with ⟨marks, afterMarks, atMarks, gives⟩
  rcases gives_bind.mp gives with ⟨inner, afterSet, atInner, gives⟩
  rw [gives_spanFrom_bind] at gives
  rcases gives_pure.mp gives with ⟨rfl, rfl⟩
  rcases directives_sound levels shows atMarks with ⟨marked, others, rfl, left, fitsMarks⟩
  rcases sound left atInner with ⟨braced, others, rfl, left, fitsInner⟩
  refine ⟨marked ++ braced, others, by rw [List.append_assoc], left, ?_⟩
  rw [← List.append_assoc]
  exact (inlineHead_fits condition _ _ fitsMarks).inline fitsInner

theorem fragmentSelection_sound (sound : Sound .selectionSet levels set) {first : Token}
    {stream rest : Stream} {words : List Lexeme} {found : Selection} (shows : stream.Shows words)
    (gives : Gives (fragmentSelection levels set first) stream found rest) :
    ∃ taken others, words = taken ++ others ∧ rest.Shows others ∧
      Phrase.selection.Fits levels found.bare (.mark .spread :: taken) := by
  rw [fragmentSelection, gives_isAtKeyword_bind] at gives
  split at gives
  next here =>
    have isOn : stream.current.kind = .name ∧ stream.current.text = "on" := by simpa using here
    rcases isOn with ⟨atName, atOn⟩
    rcases shows.of_nameToken atName with ⟨others, rfl, left⟩
    rw [gives_advance_bind] at gives
    rcases left.of_name gives with ⟨condition, others, rfl, left, gives⟩
    rcases inlineFragment_sound sound left gives with ⟨taken, others, rfl, left, fits⟩
    exact ⟨.name stream.current.text :: .name condition.text :: taken, others, rfl, left,
      atOn ▸ fits⟩
  next elsewhere =>
    rw [gives_isAt_bind, gives_isAt_bind] at gives
    split at gives
    · exact inlineFragment_sound sound shows gives
    · rcases gives_name_bind.mp gives with ⟨atName, gives⟩
      rcases shows.of_nameToken atName with ⟨others, rfl, left⟩
      rcases gives_bind.mp gives with ⟨marks, afterMarks, atMarks, gives⟩
      rw [gives_spanFrom_bind] at gives
      rcases gives_pure.mp gives with ⟨rfl, rfl⟩
      rcases directives_sound levels left atMarks with ⟨marked, others, rfl, left, fitsMarks⟩
      -- The keyword was looked for before the name was read.
      have free : stream.current.text ≠ "on" := by simpa [atName] using elsewhere
      exact ⟨_ :: marked, others, rfl, left, .spread free fitsMarks⟩

theorem selection_sound (sound : Sound .selectionSet levels set) :
    Sound .selection levels (selection levels set) := by
  intro stream rest words found shows gives
  rw [selection, gives_current_bind] at gives
  rcases shows.of_accept rfl gives with ⟨others, rfl, left, gives⟩ | gives
  · rcases fragmentSelection_sound sound left gives with ⟨taken, others, rfl, left, fits⟩
    exact ⟨.mark .spread :: taken, others, rfl, left, fits⟩
  · exact fieldSelection_sound sound shows gives

end Selections

theorem selectionSet_sound (levels : Nat) : Sound .selectionSet levels (selectionSet levels) := by
  induction levels with
  | zero =>
      intro stream rest words found shows gives
      rcases gives_expect_bind.mp gives with ⟨_, gives⟩
      exact absurd gives not_gives_fail
  | succ levels induction =>
      intro stream rest words found shows gives
      rw [selectionSet, gives_current_bind] at gives
      rcases shows.of_expect rfl gives with ⟨others, rfl, left, gives⟩
      rcases gives_bind.mp gives with ⟨selections, between, atSelections, gives⟩
      rw [gives_spanFrom_bind] at gives
      rcases gives_pure.mp gives with ⟨rfl, rfl⟩
      rcases someUntil_sound (selection_sound induction) rfl left atSelections with
          ⟨taken, others, rfl, left, fits, occupied⟩
      refine ⟨Lexeme.braces taken, others, (Lexeme.braces_append _ _).symm, left, ?_⟩
      exact fits.selectionSet occupied

/-! ## Definitions -/

theorem variableDefinition_sound (levels : Nat) :
    Sound .variableDefinition levels (variableDefinition levels) := by
  intro stream rest words found shows gives
  rw [variableDefinition, gives_current_bind] at gives
  rcases shows.of_expect rfl gives with ⟨others, rfl, left, gives⟩
  rcases left.of_name gives with ⟨label, others, rfl, left, gives⟩
  rcases left.of_expect rfl gives with ⟨others, rfl, left, gives⟩
  rcases gives_bind.mp gives with ⟨type, afterType, atType, gives⟩
  rcases typeNode_sound levels left atType with ⟨typed, others, rfl, left, fits⟩
  rcases gives_bind.mp gives with ⟨default, afterDefault, atDefault, atEnd⟩
  rw [gives_spanFrom_bind] at atEnd
  rcases gives_ifAfter.mp atDefault with ⟨here, value, atValue, rfl⟩ | ⟨_, rfl, rfl⟩
  · rcases gives_pure.mp atEnd with ⟨rfl, rfl⟩
    rcases left.of_mark rfl here with ⟨others, rfl, more⟩
    rcases literal_sound true levels more atValue with ⟨taken, others, rfl, left, fitsValue⟩
    refine ⟨.mark .dollar :: .name label.text :: .mark .colon ::
      (typed ++ .mark .equals :: taken), others, by simp, left, ?_⟩
    refine ⟨.defaulted _ fits.written fitsValue.written, ?_,
      Nat.max_le.mpr ⟨fits.shallow, fitsValue.shallow⟩⟩
    simpa [or_imp, forall_and] using And.intro fits.readable fitsValue.readable
  · rcases gives_pure.mp atEnd with ⟨rfl, rfl⟩
    refine ⟨.mark .dollar :: .name label.text :: .mark .colon :: typed, others, rfl, left, ?_⟩
    refine ⟨.required _ fits.written, ?_, Nat.max_le.mpr ⟨fits.shallow, Nat.zero_le _⟩⟩
    simpa using fits.readable

theorem variableDefinitions_sound (levels : Nat) :
    Sound Phrase.variableDefinition.parenthesized levels (variableDefinitions levels) :=
  fun _ _ _ _ shows gives => parenthesized_sound (variableDefinition_sound levels) shows gives

theorem shorthandQuery_sound (levels : Nat) :
    Sound .operation levels (shorthandQuery levels) := by
  intro stream rest words found shows gives
  rw [shorthandQuery, gives_current_bind] at gives
  rcases gives_bind.mp gives with ⟨set, between, atSet, gives⟩
  rw [gives_spanFrom_bind] at gives
  rcases gives_pure.mp gives with ⟨rfl, rfl⟩
  rcases selectionSet_sound levels shows atSet with ⟨taken, others, rfl, left, fits⟩
  exact ⟨taken, others, rfl, left, fits.shorthand⟩

theorem operationLabel_sound {stream rest : Stream} {words : List Lexeme}
    {found : Option Name} (shows : stream.Shows words)
    (gives : Gives (ifAt .name name) stream found rest) :
    ∃ others, words = (found.map Name.text).toList.map .name ++ others ∧
      rest.Shows others := by
  rcases gives_ifAt.mp gives with ⟨here, label, atLabel, rfl⟩ | ⟨_, rfl, rfl⟩
  · rcases gives_name.mp atLabel with ⟨_, rfl, rfl⟩
    exact shows.of_nameToken here
  · exact ⟨words, rfl, shows⟩

theorem operation_sound (levels : Nat) {kind : OperationKind} {stream rest : Stream}
    {words : List Lexeme} {found : OperationDefinition} (shows : stream.Shows words)
    (atName : stream.current.kind = .name) (atKeyword : stream.current.text = kind.keyword)
    (gives : Gives (operation levels kind) stream found rest) :
    ∃ taken others, words = taken ++ others ∧ rest.Shows others ∧
      Phrase.operation.Fits levels found.bare taken := by
  rcases shows.of_nameToken atName with ⟨others, rfl, left⟩
  rw [operation, gives_current_bind, gives_advance_bind] at gives
  rcases gives_bind.mp gives with ⟨label, afterLabel, atLabel, gives⟩
  rcases operationLabel_sound left atLabel with ⟨others, rfl, more⟩
  rcases gives_bind.mp gives with ⟨declared, afterDeclared, atDeclared, gives⟩
  rcases gives_bind.mp gives with ⟨marks, afterMarks, atMarks, gives⟩
  rcases gives_bind.mp gives with ⟨set, afterSet, atSet, gives⟩
  rw [gives_spanFrom_bind] at gives
  rcases gives_pure.mp gives with ⟨rfl, rfl⟩
  rcases variableDefinitions_sound levels more atDeclared with
      ⟨bindings, others, rfl, left, fitsDeclared⟩
  rcases directives_sound levels left atMarks with ⟨marked, others, rfl, left, fitsMarks⟩
  rcases selectionSet_sound levels left atSet with ⟨braced, others, rfl, left, fits⟩
  have fits := Phrase.Fits.full kind (label.map Name.text) fitsDeclared fitsMarks fits
  rw [Option.map_map, ← atKeyword] at fits
  exact ⟨_, others, by simp, left, fits⟩

theorem fragment_sound (levels : Nat) : Sound .fragment levels (fragment levels) := by
  intro stream rest words found shows gives
  rw [fragment, gives_current_bind] at gives
  rcases shows.of_expectKeyword gives with ⟨others, rfl, left, gives⟩
  rw [gives_isAtKeyword_bind] at gives
  split at gives
  · exact absurd gives not_gives_expected
  next elsewhere =>
    rcases gives_name_bind.mp gives with ⟨atName, gives⟩
    have free : stream.passed.current.text ≠ "on" := by simpa [atName] using elsewhere
    rcases left.of_nameToken atName with ⟨others, rfl, more⟩
    rcases more.of_expectKeyword gives with ⟨others, rfl, left, gives⟩
    rcases left.of_name gives with ⟨condition, others, rfl, left, gives⟩
    rcases gives_bind.mp gives with ⟨marks, afterMarks, atMarks, gives⟩
    rcases gives_bind.mp gives with ⟨set, afterSet, atSet, gives⟩
    rw [gives_spanFrom_bind] at gives
    rcases gives_pure.mp gives with ⟨rfl, rfl⟩
    rcases directives_sound levels left atMarks with ⟨marked, others, rfl, left, fitsMarks⟩
    rcases selectionSet_sound levels left atSet with ⟨braced, others, rfl, left, fits⟩
    have fits := Phrase.Fits.fragment condition.text free fitsMarks fits
    exact ⟨_, others, by simp, left, fits⟩

theorem definition_sound (levels : Nat) : Sound .definition levels (definition levels) := by
  intro stream rest words found shows gives
  unfold definition at gives
  rw [gives_current_bind] at gives
  split at gives
  · rcases gives_map.mp gives with ⟨query, atQuery, rfl⟩
    rcases shorthandQuery_sound levels shows atQuery with ⟨taken, others, rfl, left, fits⟩
    exact ⟨taken, others, rfl, left, .operation fits.written, fits.readable, fits.shallow⟩
  next atName =>
    split at gives
    next kind atKeyword =>
      rcases gives_map.mp gives with ⟨operation, atOperation, rfl⟩
      have isKeyword := OperationKind.ofKeyword?_eq_some.mp atKeyword
      rcases operation_sound levels shows atName isKeyword atOperation with
          ⟨taken, others, rfl, left, fits⟩
      exact ⟨taken, others, rfl, left, .operation fits.written, fits.readable, fits.shallow⟩
    · split at gives
      · rcases gives_map.mp gives with ⟨fragment, atFragment, rfl⟩
        rcases fragment_sound levels shows atFragment with ⟨taken, others, rfl, left, fits⟩
        exact ⟨taken, others, rfl, left, .fragment fits.written, fits.readable, fits.shallow⟩
      · exact absurd gives not_gives_expected
  · exact absurd gives not_gives_expected

end GraphQuery.Parser
