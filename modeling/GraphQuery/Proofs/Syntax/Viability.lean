import GraphQuery.Proofs.Syntax.Beginnings
import GraphQuery.Proofs.Syntax.Productions

namespace GraphQuery.Parser

/-! No parser goes further than it may. Where one fails, unless it is for the nesting
limit, the words that it took begin a tree of its kind. -/

/-! ## Runs and the words they take -/

/-- The run takes these words. Either it gives a result that fits them, or it fails at the
token after them and, unless it went too deep, they are a beginning. -/
inductive Ending {α : Type} (parser : Parser α) (stream : Stream)
    (fits : α → List Lexeme → Prop) (begins : List Lexeme → Prop) (taken : List Lexeme) : Prop
  | given {value : α} (gives : Gives parser stream value (stream.skip taken.length))
      (fit : fits value taken)
  | failed {fault : SyntaxFault}
      (run : parser.run stream = .error ⟨fault, (stream.skip taken.length).current⟩)
      (begin : fault ≠ .tooDeep → begins taken)

def ExplainsAt {α : Type} (stream : Stream) (words : List Lexeme) (parser : Parser α)
    (fits : α → List Lexeme → Prop) (begins : List Lexeme → Prop) : Prop :=
  ∃ taken others, words = taken ++ others ∧ Ending parser stream fits begins taken

def Explains {α : Type} (parser : Parser α) (fits : α → List Lexeme → Prop)
    (begins : List Lexeme → Prop) : Prop :=
  ∀ ⦃stream : Stream⦄ ⦃words : List Lexeme⦄, stream.Shows words →
    ExplainsAt stream words parser fits begins

def anything {α : Type} : α → List Lexeme → Prop := fun _ _ => True

section Steps

variable {α β : Type} {parser : Parser α} {next : α → Parser β} {stream : Stream}
  {words : List Lexeme} {fits : α → List Lexeme → Prop} {early begins : List Lexeme → Prop}

theorem ExplainsAt.of_run {other : Parser α} (same : other.run stream = parser.run stream)
    (explains : ExplainsAt stream words parser fits begins) :
    ExplainsAt stream words other fits begins := by
  rcases explains with ⟨taken, others, rfl, ending⟩
  refine ⟨taken, others, rfl, ?_⟩
  cases ending with
  | given gives fit => exact .given (same.trans gives) fit
  | failed run begin => exact .failed (same.trans run) begin

theorem ExplainsAt.bind {whole : β → List Lexeme → Prop}
    (explains : ExplainsAt stream words parser fits early) (shows : stream.Shows words)
    (begin : ∀ taken, early taken → begins taken)
    (more : ∀ value taken, fits value taken → Explains (next value)
      (fun result others => whole result (taken ++ others))
      fun others => begins (taken ++ others)) :
    ExplainsAt stream words (parser >>= next) whole begins := by
  rcases explains with ⟨taken, others, rfl, ending⟩
  cases ending with
  | failed run early =>
      refine ⟨taken, others, rfl, .failed ?_ fun shallow => begin taken (early shallow)⟩
      rw [StateT.run_bind, run]
      rfl
  | @given value gives fit =>
      have left := shows.skip taken.length
      rw [List.drop_left] at left
      rcases more value taken fit left with ⟨further, others, rfl, ending⟩
      refine ⟨taken ++ further, others, by rw [List.append_assoc], ?_⟩
      cases ending with
      | given givesNext fit =>
          rw [Stream.skip_skip, ← List.length_append] at givesNext
          exact .given (gives.bind givesNext) fit
      | failed run begin =>
          rw [Stream.skip_skip, ← List.length_append] at run
          refine .failed ?_ begin
          rw [StateT.run_bind, gives]
          exact run

theorem Explains.bind {whole : β → List Lexeme → Prop} (explains : Explains parser fits early)
    (begin : ∀ taken, early taken → begins taken)
    (more : ∀ value taken, fits value taken → Explains (next value)
      (fun result others => whole result (taken ++ others))
      fun others => begins (taken ++ others)) :
    Explains (parser >>= next) whole begins :=
  fun _ _ shows => (explains shows).bind shows begin more

theorem explains_pure {value : α} (fit : fits value []) : Explains (pure value) fits begins :=
  fun _ words _ => ⟨[], words, rfl, .given (gives_return value) fit⟩

theorem explains_fail {fault : SyntaxFault} (begin : fault ≠ .tooDeep → begins []) :
    Explains (fail fault) fits begins :=
  fun _ words _ => ⟨[], words, rfl, .failed rfl begin⟩

theorem explains_expected {wanted : Expectation} (begin : begins []) :
    Explains (expected wanted) fits begins := explains_fail fun _ => begin

theorem ExplainsAt.mono {weaker : List Lexeme → Prop}
    (explains : ExplainsAt stream words parser fits begins)
    (weaken : ∀ taken, begins taken → weaker taken) :
    ExplainsAt stream words parser fits weaker := by
  rcases explains with ⟨taken, others, rfl, ending⟩
  refine ⟨taken, others, rfl, ?_⟩
  cases ending with
  | given gives fit => exact .given gives fit
  | failed run begin => exact .failed run fun shallow => weaken taken (begin shallow)

theorem Explains.mono {weaker : List Lexeme → Prop} (explains : Explains parser fits begins)
    (weaken : ∀ taken, begins taken → weaker taken) : Explains parser fits weaker :=
  fun _ _ shows => (explains shows).mono weaken

theorem ExplainsAt.map (explains : ExplainsAt stream words parser anything begins)
    (shows : stream.Shows words) (change : α → β) :
    ExplainsAt stream words (change <$> parser) anything begins := by
  rw [map_eq_pure_bind]
  exact explains.bind shows (fun _ begin => begin) fun _ _ _ => explains_pure trivial

theorem Explains.map (explains : Explains parser anything begins) (change : α → β) :
    Explains (change <$> parser) anything begins :=
  fun _ _ shows => (explains shows).map shows change

theorem explains_spanned (first : Token) (build : Span → α) :
    Explains (spanFrom first >>= fun span => pure (build span)) anything begins :=
  fun stream words _ => ⟨[], words, rfl,
    .given ((gives_spanFrom first stream).bind (gives_return _)) trivial⟩

theorem explainsAt_current_bind {next : Token → Parser α}
    (explains : ExplainsAt stream words (next stream.current) fits begins) :
    ExplainsAt stream words (current >>= next) fits begins := by
  have look : (current >>= next).run stream = (next stream.current).run stream := rfl
  exact explains.of_run look

theorem explains_current_bind {next : Token → Parser α}
    (explains : ∀ token, Explains (next token) fits begins) :
    Explains (current >>= next) fits begins :=
  fun stream _ shows => explainsAt_current_bind (explains stream.current shows)

/-- What is known of each tree that is given is known of what is explained. -/
theorem Explains.of_sound {phrase : Phrase α} {levels : Nat}
    (explains : Explains parser anything begins) (sound : Sound phrase levels parser) :
    Explains parser (fun value taken => phrase.Fits levels (phrase.bare value) taken) begins := by
  intro stream words shows
  rcases explains shows with ⟨taken, others, rfl, ending⟩
  refine ⟨taken, others, rfl, ?_⟩
  cases ending with
  | failed run begin => exact .failed run begin
  | given gives _ =>
      rcases sound shows gives with ⟨found, left, same, showsLeft, fits⟩
      have shown := shows.skip taken.length
      rw [List.drop_left] at shown
      have length := shown.length_following
      rw [showsLeft.length_following] at length
      obtain ⟨rfl, rfl⟩ := List.append_inj' same length.symm
      exact .given gives fits

end Steps

/-! ## Single tokens -/

section Tokens

variable {α : Type} {kind : Token.Kind} {stream : Stream} {words : List Lexeme}

theorem explainsAt_advance {next : Unit → Parser α} {fits : α → List Lexeme → Prop}
    {begins : List Lexeme → Prop} (shows : stream.Shows words)
    (notEnd : stream.current.kind ≠ .endOfInput)
    (more : Explains (next ()) (fun result others => fits result (stream.current.lexeme :: others))
      fun others => begins (stream.current.lexeme :: others)) :
    ExplainsAt stream words (advance >>= next) fits begins := by
  rcases shows.eq_cons notEnd with ⟨others, rfl, left⟩
  have taken : ExplainsAt stream (stream.current.lexeme :: others) advance
      (fun _ taken => taken = [stream.current.lexeme]) fun _ => False :=
    ⟨[stream.current.lexeme], others, rfl, .given rfl rfl⟩
  apply taken.bind shows nofun
  rintro _ _ rfl
  exact more

theorem explains_accept (punctuator : kind.isPunctuator = true) :
    Explains (accept kind) (fun here taken => taken = if here = true then [.mark kind] else [])
      fun _ => False := by
  intro stream words shows
  by_cases here : stream.current.kind = kind
  · rcases shows.of_mark punctuator here with ⟨others, rfl, _⟩
    have gives : Gives (accept kind) stream true (stream.skip 1) := by
      rw [← bind_pure (accept kind), gives_accept_bind]
      exact .inl ⟨here, gives_return true⟩
    exact ⟨[.mark kind], others, rfl, .given gives rfl⟩
  · have gives : Gives (accept kind) stream false (stream.skip 0) := by
      rw [← bind_pure (accept kind), gives_accept_bind]
      exact .inr ⟨here, gives_return false⟩
    exact ⟨[], words, rfl, .given gives rfl⟩

theorem explains_expect (punctuator : kind.isPunctuator = true) :
    Explains (expect kind) (fun _ taken => taken = [.mark kind]) (· = []) := by
  apply (explains_accept punctuator).bind nofun
  rintro here _ rfl
  cases here with
  | true => exact explains_pure rfl
  | false => exact explains_expected rfl

theorem explainsAt_name (known : String → Prop) (shows : stream.Shows words)
    (holds : stream.current.kind = .name → known stream.current.text) :
    ExplainsAt stream words name
      (fun label taken => known label.text ∧ taken = [.name label.text]) (· = []) := by
  apply explainsAt_current_bind
  split
  next here =>
    apply explainsAt_advance shows (by rw [here]; nofun)
    exact explains_pure ⟨holds here, by rw [Token.lexeme_eq_name.mpr ⟨here, rfl⟩]⟩
  · exact explains_expected (by rfl) shows

theorem explains_name : Explains name (fun label taken => taken = [.name label.text]) (· = []) := by
  intro stream words shows
  rcases explainsAt_name (fun _ => True) shows fun _ => trivial with ⟨taken, others, rfl, ending⟩
  refine ⟨taken, others, rfl, ?_⟩
  cases ending with
  | given gives fit => exact .given gives fit.2
  | failed run begin => exact .failed run begin

theorem explains_isAt_bind {next : Bool → Parser α} {fits : α → List Lexeme → Prop}
    {begins : List Lexeme → Prop} (explains : ∀ here, Explains (next here) fits begins) :
    Explains (isAt kind >>= next) fits begins := by
  intro stream words shows
  have look : (isAt kind >>= next).run stream = (next (stream.current.kind == kind)).run stream :=
    rfl
  exact (explains _ shows).of_run look

theorem Explains.ifAt {parser : Parser α} {begins : List Lexeme → Prop}
    (explains : Explains parser anything begins) (kind : Token.Kind) :
    Explains (ifAt kind parser) anything begins := by
  apply explains_isAt_bind
  intro here
  cases here with
  | true => exact explains.map some
  | false => exact explains_pure trivial

theorem explains_isAtKeyword_bind (word : String) {inside outside : Parser α}
    {fits : α → List Lexeme → Prop} {begins : List Lexeme → Prop}
    (here : ∀ ⦃stream words⦄, Stream.Shows stream words → stream.current.lexeme = .name word →
      ExplainsAt stream words inside fits begins)
    (elsewhere : ∀ ⦃stream words⦄, Stream.Shows stream words →
      (stream.current.kind = .name → stream.current.text ≠ word) →
      ExplainsAt stream words outside fits begins) :
    Explains (isAtKeyword word >>= fun found => if found = true then inside else outside)
      fits begins := by
  intro stream words shows
  have look : (isAtKeyword word >>= fun found => if found = true then inside else outside).run
      stream = (if (stream.current.kind == .name && stream.current.text == word) = true then
        inside else outside).run stream := rfl
  apply ExplainsAt.of_run look
  split
  next found =>
    rw [Bool.and_eq_true, beq_iff_eq, beq_iff_eq] at found
    exact here shows (Token.lexeme_eq_name.mpr found)
  next missing => exact elsewhere shows (by simpa using missing)

theorem explains_keyword_bind (word : String) {after : Unit → Parser α} {otherwise : Parser α}
    {fits : α → List Lexeme → Prop} {begins : List Lexeme → Prop}
    (taken : Explains (after ()) (fun result others => fits result (.name word :: others))
      fun others => begins (.name word :: others))
    (left : ∀ ⦃stream words⦄, Stream.Shows stream words →
      (stream.current.kind = .name → stream.current.text ≠ word) →
      ExplainsAt stream words otherwise fits begins) :
    Explains (isAtKeyword word >>= fun here => if here = true then advance >>= after else otherwise)
      fits begins := by
  apply explains_isAtKeyword_bind word _ left
  intro stream words shows here
  apply explainsAt_advance shows (by rw [(Token.lexeme_eq_name.mp here).1]; nofun)
  rw [here]
  exact taken

theorem explains_expectKeyword (word : String) :
    Explains (expectKeyword word) (fun _ taken => taken = [.name word]) (· = []) := by
  have same : expectKeyword word = (isAtKeyword word >>= fun here =>
      if here = true then advance >>= pure else expected (.keyword word)) := by
    rw [expectKeyword, bind_pure]
  rw [same]
  apply explains_keyword_bind
  · exact explains_pure rfl
  · exact fun _ _ shows _ => explains_expected (by rfl) shows

end Tokens

/-! ## Repetition -/

section Repetition

variable {α : Type} {phrase : Phrase α} {levels : Nat} {item : Parser α}

/-- Whatever the parser does, it gives a tree that fits or fails at the end of a beginning. -/
structure Viable (phrase : Phrase α) (levels : Nat) (parser : Parser α) : Prop where
  sound : Sound phrase levels parser
  explains : Explains parser anything phrase.Begins

theorem Viable.fits {parser : Parser α} (viable : Viable phrase levels parser) :
    Explains parser (fun value taken => phrase.Fits levels (phrase.bare value) taken)
      phrase.Begins :=
  viable.explains.of_sound viable.sound

theorem Viable.repeatedly (viable : Viable phrase levels item) (here : Token → Bool)
    (extensions : List Token.Kind) (bound : Nat) :
    Explains (repeatedly here item bound) anything (phrase.sequence extensions).Begins := by
  induction bound with
  | zero => exact explains_pure trivial
  | succ bound induction =>
      apply explains_current_bind
      intro token
      split
      · apply viable.fits.bind fun _ begin => begin.sequence
        intro value taken fits
        apply induction.bind
        · exact fun more begin => begin.sequence_cons fits
        · exact fun _ _ _ => explains_pure trivial
      · exact explains_pure trivial

theorem Viable.many (viable : Viable phrase levels item) (here : Token → Bool)
    (extensions : List Token.Kind) :
    Viable (phrase.sequence extensions) levels (many here item) where
  sound := many_sound viable.sound here extensions
  explains := by
    intro stream words shows
    have look : (Parser.many here item).run stream =
        (Parser.repeatedly here item (stream.following.length + 1)).run stream := rfl
    exact (viable.repeatedly here extensions _ shows).of_run look

theorem Viable.manyUntil (viable : Viable phrase levels item) {closing : Token.Kind}
    (punctuator : closing.isPunctuator = true) :
    Explains (manyUntil closing item) anything (phrase.sequence []).Begins := by
  apply (viable.many (fun token => token.kind != closing) []).fits.bind fun _ begin => begin
  intro items taken fits
  apply (explains_expect punctuator).bind
  · rintro _ rfl
    rw [List.append_nil]
    exact fits.begins
  · exact fun _ _ _ => explains_pure trivial

theorem Viable.someUntil (viable : Viable phrase levels item) {closing : Token.Kind}
    (punctuator : closing.isPunctuator = true) :
    Explains (someUntil closing item) anything phrase.several.Begins := by
  apply viable.fits.bind fun _ begin => begin.several
  intro first taken fits
  apply (viable.manyUntil punctuator).bind
  · exact fun more begin => begin.several_cons fits
  · exact fun _ _ _ => explains_pure trivial

end Repetition

/-! ## Literals and types -/

section Literals

variable {constant : Bool} {levels : Nat} {inner? : Option (Parser Literal)}

theorem Viable.objectField {value : Parser Literal}
    (viable : Viable (.literal constant) levels value) :
    Viable (.literalField constant) levels (objectField value) where
  sound := objectField_sound viable.sound
  explains := by
    have opened (key : String) : (Phrase.literalField constant).Begins [.name key, .mark .colon] :=
      Phrase.begins_literal.literalField key
    apply explains_name.bind
    · rintro _ rfl
      exact (opened "a").shorten (by simp [Token.fillers])
    rintro key _ rfl
    apply (explains_expect rfl).bind
    · rintro _ rfl
      exact (opened key.text).shorten (by simp [Token.fillers])
    rintro _ _ rfl
    apply viable.explains.bind
    · exact fun taken begin => begin.literalField key.text
    · exact fun _ _ _ => explains_pure trivial

theorem explains_literalWith
    (viable : ∀ inner ∈ inner?, ∃ less, Viable (.literal constant) less inner) :
    Explains (literalWith constant inner?) anything (Phrase.literal constant).Begins := by
  intro stream words shows
  apply explainsAt_current_bind
  have single (tree : Literal) (notEnd : stream.current.kind ≠ .endOfInput) :
      ExplainsAt stream words (advance >>= fun _ => pure tree) anything
        (Phrase.literal constant).Begins :=
    explainsAt_advance shows notEnd (explains_pure trivial)
  cases here : stream.current.kind with
  | dollar =>
      cases constant with
      | true => exact explains_expected Phrase.begins_literal shows
      | false =>
          apply explainsAt_advance shows (by rw [here]; nofun)
          rw [(Token.lexeme_eq_mark rfl).mpr here]
          apply explains_name.bind
          · rintro _ rfl
            exact Phrase.begins_reference
          · exact fun _ _ _ => explains_pure trivial
  | int =>
      dsimp only
      split
      · exact single _ (by rw [here]; nofun)
      · exact explains_fail (fun _ => Phrase.begins_literal) shows
  | float => exact single _ (by rw [here]; nofun)
  | string =>
      dsimp only
      split
      · exact single _ (by rw [here]; nofun)
      · exact explains_fail (fun _ => Phrase.begins_literal) shows
  | blockString => exact single _ (by rw [here]; nofun)
  | bracketOpen =>
      apply explainsAt_advance shows (by rw [here]; nofun)
      rw [(Token.lexeme_eq_mark rfl).mpr here]
      cases inner? with
      | none => exact explains_fail fun shallow => absurd rfl shallow
      | some inner =>
          rcases viable inner rfl with ⟨less, viableInner⟩
          apply (viableInner.manyUntil rfl).bind
          · exact fun taken begin => begin.list
          · exact fun _ _ _ => explains_pure trivial
  | braceOpen =>
      apply explainsAt_advance shows (by rw [here]; nofun)
      rw [(Token.lexeme_eq_mark rfl).mpr here]
      cases inner? with
      | none => exact explains_fail fun shallow => absurd rfl shallow
      | some inner =>
          rcases viable inner rfl with ⟨less, viableInner⟩
          apply (viableInner.objectField.manyUntil rfl).bind
          · exact fun taken begin => begin.object
          · exact fun _ _ _ => explains_pure trivial
  | name => exact single _ (by rw [here]; nofun)
  | _ => exact explains_expected Phrase.begins_literal shows

theorem viable_literal (constant : Bool) (levels : Nat) :
    Viable (.literal constant) levels (literal constant levels) := by
  refine ⟨literal_sound constant levels, ?_⟩
  induction levels with
  | zero => exact explains_literalWith nofun
  | succ levels induction =>
      apply explains_literalWith
      rintro _ ⟨⟩
      exact ⟨levels, literal_sound constant levels, induction⟩

end Literals

section Types

variable {inner? : Option (Parser TypeNode)}

theorem explains_nullableType
    (viable : ∀ inner ∈ inner?, ∃ less, Viable .typeNode less inner) :
    Explains (nullableType inner?) anything Phrase.typeNode.Begins := by
  apply (explains_accept rfl).bind nofun
  rintro here _ rfl
  cases here with
  | false =>
      apply explains_name.bind
      · rintro _ rfl
        exact Phrase.begins_typeNode
      · exact fun _ _ _ => explains_pure trivial
  | true =>
      cases inner? with
      | none => exact explains_fail fun shallow => absurd rfl shallow
      | some inner =>
          rcases viable inner rfl with ⟨less, viableInner⟩
          apply viableInner.fits.bind
          · exact fun taken begin => begin.listType
          intro type taken fits
          apply (explains_expect rfl).bind
          · rintro _ rfl
            rw [List.append_nil]
            exact fits.begins.listType
          · exact fun _ _ _ => explains_pure trivial

theorem explains_typeNodeWith
    (viable : ∀ inner ∈ inner?, ∃ less, Viable .typeNode less inner) :
    Explains (typeNodeWith inner?) anything Phrase.typeNode.Begins := by
  apply (explains_nullableType viable).bind fun _ begin => begin
  intro type taken _
  apply (explains_accept rfl).bind nofun
  rintro here _ rfl
  cases here with
  | true => exact explains_pure trivial
  | false => exact explains_pure trivial

theorem viable_typeNode (levels : Nat) : Viable .typeNode levels (typeNode levels) := by
  refine ⟨typeNode_sound levels, ?_⟩
  induction levels with
  | zero => exact explains_typeNodeWith nofun
  | succ levels induction =>
      apply explains_typeNodeWith
      rintro _ ⟨⟩
      exact ⟨levels, typeNode_sound levels, induction⟩

end Types

/-! ## Arguments and directives -/

theorem viable_argument (levels : Nat) : Viable .argument levels (argument levels) where
  sound := argument_sound levels
  explains := by
    have opened (key : String) : Phrase.argument.Begins [.name key, .mark .colon] :=
      Phrase.begins_literal.argument key
    apply explains_current_bind
    intro first
    apply explains_name.bind
    · rintro _ rfl
      exact (opened "a").shorten (by simp [Token.fillers])
    rintro key _ rfl
    apply (explains_expect rfl).bind
    · rintro _ rfl
      exact (opened key.text).shorten (by simp [Token.fillers])
    rintro _ _ rfl
    apply (viable_literal false levels).explains.bind
    · exact fun taken begin => begin.argument key.text
    · exact fun value _ _ => explains_spanned first _

theorem Viable.parenthesized {α : Type} {phrase : Phrase α} {levels : Nat} {item : Parser α}
    (viable : Viable phrase levels item) :
    Viable phrase.parenthesized levels (accept .parenOpen >>= fun opened =>
      if opened = true then Parser.someUntil .parenClose item else pure []) where
  sound := fun _ _ _ _ shows gives => parenthesized_sound viable.sound shows gives
  explains := by
    apply (explains_accept rfl).bind nofun
    rintro here _ rfl
    cases here with
    | false => exact explains_pure trivial
    | true =>
        exact (viable.someUntil rfl).mono fun _ begin => begin.parenthesized

theorem viable_arguments (levels : Nat) :
    Viable Phrase.argument.parenthesized levels (arguments levels) :=
  (viable_argument levels).parenthesized

theorem viable_directive (levels : Nat) : Viable .directive levels (directive levels) where
  sound := directive_sound levels
  explains := by
    have opened (label : String) : Phrase.directive.Begins [.mark .atSign, .name label] :=
      Phrase.begins_parenthesized.directive label
    apply explains_current_bind
    intro first
    apply (explains_expect rfl).bind
    · rintro _ rfl
      exact (opened "a").shorten (by simp [Token.fillers])
    rintro _ _ rfl
    apply explains_name.bind
    · rintro _ rfl
      exact (opened "a").shorten (by simp [Token.fillers])
    rintro label _ rfl
    apply (viable_arguments levels).explains.bind
    · exact fun taken begin => begin.directive label.text
    · exact fun value _ _ => explains_spanned first _

theorem viable_directives (levels : Nat) : Viable .directives levels (directives levels) :=
  (viable_directive levels).many _ _

/-! ## Selections -/

theorem explains_fieldNames : Explains fieldNames
    (fun names taken => taken = Lexeme.labelled (names.1.map Name.text) names.2.text)
    fun taken => taken = [] ∨ ∃ label, taken = [.name label, .mark .colon] := by
  apply explains_name.bind fun _ begin => .inl begin
  rintro first _ rfl
  apply (explains_accept rfl).bind nofun
  rintro here _ rfl
  cases here with
  | false => exact explains_pure rfl
  | true =>
      apply explains_name.bind
      · rintro _ rfl
        exact .inr ⟨first.text, rfl⟩
      · rintro second _ rfl
        exact explains_pure rfl

section Selections

variable {levels : Nat} {set : Parser SelectionSet}

theorem Viable.fieldSelection (viable : Viable .selectionSet levels set) :
    Explains (fieldSelection levels set) anything Phrase.selection.Begins := by
  apply explains_current_bind
  intro first
  apply explains_fieldNames.bind
  · rintro _ (rfl | ⟨label, rfl⟩)
    · exact Phrase.begins_selection
    · exact Phrase.begins_labelled label
  rintro ⟨label, key⟩ _ rfl
  apply (viable_arguments levels).fits.bind
  · exact fun taken begin => begin.fieldArguments _ _
  intro values valued fitsValues
  apply (viable_directives levels).fits.bind
  · exact fun taken begin => begin.fieldDirectives _ _ fitsValues
  intro marks marked fitsMarks
  apply (viable.explains.ifAt .braceOpen).bind
  · exact fun taken begin => begin.fieldSet _ _ fitsValues fitsMarks
  rintro (_ | inner) _ _
  · exact explains_spanned first _
  · exact explains_spanned first _

theorem Viable.inlineFragment (viable : Viable .selectionSet levels set) (first : Token)
    (condition : Option Name) :
    Explains (inlineFragment levels set first condition) anything fun taken =>
      Phrase.selection.Begins
        (.mark .spread :: (Lexeme.typeCondition (condition.map Name.text) ++ taken)) := by
  apply (viable_directives levels).fits.bind
  · exact fun taken begin => begin.inlineDirectives _
  intro marks marked fitsMarks
  apply viable.explains.bind
  · exact fun taken begin => begin.inlineSet _ fitsMarks
  · exact fun inner _ _ => explains_spanned first _

theorem Viable.fragmentSelection (viable : Viable .selectionSet levels set) (first : Token) :
    Explains (fragmentSelection levels set first) anything fun taken =>
      Phrase.selection.Begins (.mark .spread :: taken) := by
  apply explains_keyword_bind
  · apply explains_name.bind
    · rintro _ rfl
      exact Phrase.begins_typeCondition
    rintro condition _ rfl
    exact viable.inlineFragment first (some condition)
  · -- What is named here cannot be the keyword, which would have been passed.
    intro stream words shows free
    have look {inside outside : Parser Selection} :
        (isAt .braceOpen >>= fun atBrace => isAt .atSign >>= fun atSign =>
          if (atBrace || atSign) = true then inside else outside).run stream =
        (if (stream.current.kind == .braceOpen || stream.current.kind == .atSign) = true then
          inside else outside).run stream := rfl
    apply ExplainsAt.of_run look
    split
    · exact viable.inlineFragment first none shows
    · apply (explainsAt_name (· ≠ "on") shows free).bind shows
      · rintro _ rfl
        exact Phrase.begins_spread
      rintro label _ ⟨notOn, rfl⟩
      apply (viable_directives levels).explains.bind
      · exact fun taken begin => begin.spread notOn
      · exact fun marks _ _ => explains_spanned first _

theorem Viable.selection (viable : Viable .selectionSet levels set) :
    Viable .selection levels (selection levels set) where
  sound := selection_sound viable.sound
  explains := by
    apply explains_current_bind
    intro first
    apply (explains_accept rfl).bind nofun
    rintro here _ rfl
    cases here with
    | true => exact viable.fragmentSelection first
    | false => exact viable.fieldSelection

end Selections

theorem viable_selectionSet (levels : Nat) :
    Viable .selectionSet levels (selectionSet levels) := by
  induction levels with
  | zero =>
      refine ⟨selectionSet_sound 0, ?_⟩
      apply (explains_expect rfl).bind
      · rintro _ rfl
        exact Phrase.begins_selectionSet
      · exact fun _ _ _ => explains_fail fun shallow => absurd rfl shallow
  | succ levels induction =>
      refine ⟨selectionSet_sound (levels + 1), ?_⟩
      apply explains_current_bind
      intro first
      apply (explains_expect rfl).bind
      · rintro _ rfl
        exact Phrase.begins_selectionSet
      rintro _ _ rfl
      apply (induction.selection.someUntil rfl).bind
      · exact fun taken begin => begin.selections
      · exact fun selections _ _ => explains_spanned first _

/-! ## Definitions -/

theorem explains_defaultValue (levels : Nat) :
    Explains (ifAfter .equals (literal true levels)) anything fun taken =>
      ∃ more, taken = .mark .equals :: more ∧ (Phrase.literal true).Begins more := by
  apply (explains_accept rfl).bind nofun
  rintro here _ rfl
  cases here with
  | false => exact explains_pure trivial
  | true =>
      have value := (viable_literal true levels).explains.map some
      exact value.mono fun more begin => ⟨more, rfl, begin⟩

theorem viable_variableDefinition (levels : Nat) :
    Viable .variableDefinition levels (variableDefinition levels) where
  sound := variableDefinition_sound levels
  explains := by
    have opened (label : String) := Phrase.begins_variableDefinition label
    apply explains_current_bind
    intro first
    apply (explains_expect rfl).bind
    · rintro _ rfl
      exact (opened "a").shorten (by simp [Token.fillers])
    rintro _ _ rfl
    apply explains_name.bind
    · rintro _ rfl
      exact (opened "a").shorten (by simp [Token.fillers])
    rintro label _ rfl
    apply (explains_expect rfl).bind
    · rintro _ rfl
      exact (opened label.text).shorten (by simp [Token.fillers])
    rintro _ _ rfl
    apply (viable_typeNode levels).fits.bind
    · exact fun taken begin => begin.variableType label.text
    intro type typed fits
    apply (explains_defaultValue levels).bind
    · rintro _ ⟨more, rfl, begin⟩
      exact begin.variableDefault label.text fits
    · exact fun value _ _ => explains_spanned first _

theorem viable_variableDefinitions (levels : Nat) :
    Viable Phrase.variableDefinition.parenthesized levels (variableDefinitions levels) :=
  (viable_variableDefinition levels).parenthesized

theorem explains_shorthandQuery (levels : Nat) :
    Explains (shorthandQuery levels) anything Phrase.operation.Begins := by
  apply explains_current_bind
  intro first
  apply (viable_selectionSet levels).explains.bind
  · exact fun taken begin => begin.shorthand
  · exact fun set _ _ => explains_spanned first _

theorem explains_operationLabel : Explains (ifAt .name name)
    (fun label taken => taken = (label.map Name.text).toList.map .name) (· = []) := by
  apply explains_isAt_bind
  intro here
  cases here with
  | false => exact explains_pure rfl
  | true =>
      rw [if_pos rfl, map_eq_pure_bind]
      apply explains_name.bind fun _ begin => begin
      rintro label _ rfl
      exact explains_pure rfl

theorem explainsAt_operation (levels : Nat) {kind : OperationKind} {stream : Stream}
    {words : List Lexeme} (shows : stream.Shows words) (atName : stream.current.kind = .name)
    (atKeyword : stream.current.text = kind.keyword) :
    ExplainsAt stream words (operation levels kind) anything Phrase.operation.Begins := by
  apply explainsAt_current_bind
  apply explainsAt_advance shows (by rw [atName]; nofun)
  rw [Token.lexeme_eq_name.mpr ⟨atName, atKeyword⟩]
  apply explains_operationLabel.bind
  · rintro _ rfl
    exact Phrase.begins_parenthesized.operationVariables kind none
  rintro label _ rfl
  apply (viable_variableDefinitions levels).fits.bind
  · exact fun taken begin => begin.operationVariables kind _
  intro bindings declared fitsBindings
  apply (viable_directives levels).fits.bind
  · exact fun taken begin => begin.operationDirectives kind _ fitsBindings
  intro marks marked fitsMarks
  apply (viable_selectionSet levels).explains.bind
  · exact fun taken begin => begin.operationSet kind _ fitsBindings fitsMarks
  · exact fun set _ _ => explains_spanned _ _

theorem explains_fragment (levels : Nat) :
    Explains (fragment levels) anything Phrase.definition.Begins := by
  apply explains_current_bind
  intro first
  apply (explains_expectKeyword "fragment").bind
  · rintro _ rfl
    exact Phrase.begins_selectionSet.shorthand.ofOperation
  rintro _ _ rfl
  apply explains_isAtKeyword_bind
  · exact fun stream words shows _ => explains_expected Phrase.begins_fragment.ofFragment shows
  intro stream words shows free
  apply (explainsAt_name (· ≠ "on") shows free).bind shows
  · rintro _ rfl
    exact Phrase.begins_fragment.ofFragment
  rintro label _ ⟨notOn, rfl⟩
  have opened : Phrase.fragment.Begins [.name "fragment", .name label.text, .name "on"] :=
    Phrase.begins_fragmentLabel notOn
  apply (explains_expectKeyword "on").bind
  · rintro _ rfl
    exact (opened.shorten (by simp [Token.fillers])).ofFragment
  rintro _ _ rfl
  apply explains_name.bind
  · rintro _ rfl
    exact opened.ofFragment
  rintro condition _ rfl
  apply (viable_directives levels).fits.bind
  · exact fun taken begin => (begin.fragmentDirectives condition.text notOn).ofFragment
  intro marks marked fitsMarks
  apply (viable_selectionSet levels).explains.bind
  · exact fun taken begin => (begin.fragmentSet condition.text notOn fitsMarks).ofFragment
  · exact fun set _ _ => explains_spanned first _

theorem viable_definition (levels : Nat) : Viable .definition levels (definition levels) where
  sound := definition_sound levels
  explains := by
    have opened : Phrase.definition.Begins [] :=
      Phrase.begins_selectionSet.shorthand.ofOperation
    intro stream words shows
    apply explainsAt_current_bind
    split
    · have query := (explains_shorthandQuery levels).map Definition.operation
      exact query.mono (fun _ begin => begin.ofOperation) shows
    next atName =>
      split
      next kind atKeyword =>
        have isKeyword := OperationKind.ofKeyword?_eq_some.mp atKeyword
        have tree := (explainsAt_operation levels shows atName isKeyword).map shows
          Definition.operation
        exact tree.mono fun _ begin => begin.ofOperation
      · split
        · exact (explains_fragment levels).map Definition.fragment shows
        · exact explains_expected opened shows
    · exact explains_expected opened shows

end GraphQuery.Parser
