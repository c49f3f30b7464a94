import GraphQuery.Proofs.Syntax.Definitions

namespace GraphQuery.Parser

/-! A syntax error names the first token that cannot stand where it does: every text that
begins so is refused for the same reason, and the tokens before it begin a document. -/

/-! ## Texts that begin alike -/

/-- Two texts have the same first tokens, as many as are counted, but for their places. -/
def BeginAlike (count : Nat) (text other : List Char) : Prop :=
  ((Token.tokenize text).take count).map tokenText =
    ((Token.tokenize other).take count).map tokenText

section Alike

variable {index : Nat} {text other : List Char}

theorem BeginAlike.within (alike : BeginAlike (index + 1) text other)
    (within : index ≤ (Stream.ofText text).following.length) :
    index ≤ (Stream.ofText other).following.length := by
  have lengths := congrArg List.length alike
  rw [List.length_map, List.length_map, List.length_take, List.length_take,
    Stream.length_tokenize, Stream.length_tokenize] at lengths
  omega

theorem BeginAlike.alikeUpTo (alike : BeginAlike (index + 1) text other)
    (within : index ≤ (Stream.ofText text).following.length) :
    matching.AlikeUpTo index (Stream.ofText text) (Stream.ofText other) := by
  intro place bound
  have also := alike.within within
  have same := congrArg (fun tokens => tokens[place]?) alike
  simp only [List.getElem?_map, List.getElem?_take_of_lt (Nat.lt_succ_of_le bound),
    ← Stream.tokens_ofText, Stream.getElem?_tokens (Nat.le_trans bound within),
    Stream.getElem?_tokens (Nat.le_trans bound also), Option.map_some] at same
  obtain ⟨kind, text⟩ := Prod.mk.inj (Option.some.inj same)
  exact ⟨kind, text, nofun⟩

end Alike

theorem detail_congr {fault : SyntaxFault} {token other : Token} {limit : Nat}
    (kind : token.kind = other.kind) (text : token.text = other.text)
    (place otherPlace : Location) :
    SyntaxError.detail ⟨⟨fault, token⟩, place, limit⟩ =
      SyntaxError.detail ⟨⟨fault, other⟩, otherPlace, limit⟩ := by
  cases fault <;> simp only [SyntaxError.detail, SyntaxError.renderFound, kind, text]

/-! ## Texts that are refused -/

section Refused

variable {limit start more : Nat} {text : List Char} {earlier : List Definition}
  {fault : SyntaxFault}

theorem ended_ofText (text : List Char) : (Stream.ofText text).Ended :=
  ⟨_, Stream.shows_ofText text⟩

theorem distinct_ofText (text : List Char) : (Stream.ofText text).tokens.Nodup :=
  Stream.tokens_ofText text ▸ nodup_tokenize text

theorem Breaks.passes {stream : Stream} (breaks : Breaks limit stream start more earlier fault) :
    stream.Passes (start + more) :=
  breaks.reads.passes.append breaks.ends.passes

theorem Breaks.within (breaks : Breaks limit (Stream.ofText text) start more earlier fault) :
    start + more ≤ (Stream.ofText text).following.length :=
  breaks.passes.count_le (ended_ofText text)

theorem getElem?_tokenize (text : List Char) {count : Nat}
    (within : count ≤ (Stream.ofText text).following.length) :
    (Token.tokenize text)[count]? = some ((Stream.ofText text).skip count).current := by
  rw [← Stream.tokens_ofText, Stream.getElem?_tokens within]

theorem exists_breaks_ofText {error : SyntaxError}
    (failed : parseDocument limit text = .error error) : ∃ start more earlier fault,
      Breaks limit (Stream.ofText text) start more earlier fault ∧
      error = ⟨⟨fault, ((Stream.ofText text).skip (start + more)).current⟩,
        ((Stream.ofText text).skip start).current.location, limit⟩ := by
  simp only [parseDocument] at failed
  split at failed
  next error found =>
    cases failed
    exact exists_breaks (ended_ofText text) found
  · cases failed

theorem Reads.parseDocument {count : Nat} {found : List Definition}
    (reads : Reads limit (Stream.ofText text) count found)
    (atEnd : ((Stream.ofText text).skip count).current.kind = .endOfInput) :
    ∃ document, parseDocument limit text = .ok document ∧ document.definitions = found := by
  have within := reads.passes.count_le (ended_ofText text)
  have few : found.length ≤ (Stream.ofText text).following.length + 1 := by
    have atMost := reads.length_le
    omega
  simp only [Parser.parseDocument, reads.definitions atEnd few]
  exact ⟨_, rfl, rfl⟩

theorem Breaks.parseDocument (breaks : Breaks limit (Stream.ofText text) start more earlier fault) :
    parseDocument limit text =
      .error ⟨⟨fault, ((Stream.ofText text).skip (start + more)).current⟩,
        ((Stream.ofText text).skip start).current.location, limit⟩ := by
  have within := breaks.within
  have few : earlier.length < (Stream.ofText text).following.length + 1 := by
    have atMost := breaks.reads.length_le
    omega
  simp only [Parser.parseDocument, breaks.definitions few]

theorem Breaks.alike {other : List Char}
    (breaks : Breaks limit (Stream.ofText text) start more earlier fault)
    (alike : BeginAlike (start + more + 1) text other) :
    ∃ counterparts, Breaks limit (Stream.ofText other) start more counterparts fault := by
  have same := alike.alikeUpTo breaks.within
  have room : start ≤ start + more := Nat.le_add_right _ _
  have distinct := distinct_ofText text
  have ended := ended_ofText text
  have endedOther := ended_ofText other
  have left := Stream.nodup_skip distinct (breaks.reads.passes.count_le ended)
  rcases breaks.reads.matching distinct ended endedOther same room with ⟨counterparts, reads⟩
  rcases breaks.ends.matching left (ended.skip start) (endedOther.skip start) (same.skip room)
    (by omega) with ⟨_, ends, matched⟩
  cases matched with
  | fault =>
      refine ⟨counterparts, reads, ?_, ends⟩
      rw [← (same start room).1]
      exact breaks.inside

theorem Stream.Passes.valid {count : Nat} (passes : (Stream.ofText text).Passes count) :
    ∀ word ∈ (Token.tokenize text).take count, word.kind ≠ .invalid := by
  intro word member
  rcases List.mem_iff_getElem?.mp member with ⟨index, found⟩
  have within := passes.count_le (ended_ofText text)
  by_cases below : index < count
  · rw [List.getElem?_take_of_lt below, getElem?_tokenize text (by omega)] at found
    rw [← Option.some.inj found]
    exact (passes index below).2
  · rw [List.getElem?_take_eq_none (Nat.le_of_not_lt below)] at found
    cases found

theorem split_tokenize {count : Nat} (within : count ≤ (Stream.ofText text).following.length) :
    Token.tokenize text = (Token.tokenize text).take count ++
      ((Stream.ofText text).skip count).current :: (Token.tokenize text).drop (count + 1) := by
  have found := getElem?_tokenize text within
  rcases List.getElem?_eq_some_iff.mp found with ⟨below, same⟩
  rw [← same, List.getElem_cons_drop, List.take_append_drop]

theorem length_take_tokenize {count : Nat}
    (within : count ≤ (Stream.ofText text).following.length) :
    ((Token.tokenize text).take count).length = count := by
  rw [List.length_take, Stream.length_tokenize]
  omega

theorem Breaks.cut (breaks : Breaks limit (Stream.ofText text) start more earlier fault) :
    ∃ front back document, text = front ++ back ∧
      Token.byteCount front = ((Stream.ofText text).skip start).current.span.start ∧
      Token.endOf front = ((Stream.ofText text).skip start).current.location ∧
      Parser.parseDocument limit front = .ok document ∧
      document.definitions.map Definition.openEnded = earlier.map Definition.openEnded := by
  have within := breaks.reads.passes.count_le (ended_ofText text)
  rcases Token.tokenize_cut (split_tokenize within) breaks.inside breaks.reads.passes.valid with
    ⟨front, back, whole, bytes, place, tokens⟩
  have length := length_take_tokenize within
  have enough : start ≤ (Stream.ofText front).following.length := by
    have total := congrArg List.length tokens
    rw [Stream.length_tokenize, List.length_append, length] at total
    exact Nat.le_of_eq (Nat.succ.inj total).symm
  have same : ∀ index < start, ((Stream.ofText text).skip index).current =
      ((Stream.ofText front).skip index).current := by
    intro index below
    have found := getElem?_tokenize front (show index ≤ _ by omega)
    rw [tokens, List.getElem?_append_left (by omega), List.getElem?_take_of_lt below,
      getElem?_tokenize text (by omega)] at found
    exact Option.some.inj found
  have atEnd : ((Stream.ofText front).skip start).current.kind = .endOfInput := by
    have found := getElem?_tokenize front enough
    rw [tokens, List.getElem?_append_right (Nat.le_of_eq length), length, Nat.sub_self] at found
    rw [← Option.some.inj found]
    rfl
  rcases breaks.reads.cut (distinct_ofText text) (ended_ofText text) (ended_ofText front) same with
    ⟨counterparts, reads, sameEnds⟩
  rcases reads.parseDocument atEnd with ⟨document, done, rfl⟩
  exact ⟨front, back, document, whole, bytes, place, done, sameEnds⟩

theorem start_le (within : start + more ≤ (Stream.ofText text).following.length) :
    ((Stream.ofText text).skip start).current.span.start ≤
      ((Stream.ofText text).skip (start + more)).current.span.start := by
  rcases Nat.eq_zero_or_pos more with rfl | later
  · exact Nat.le_refl _
  have rising := List.pairwise_iff_getElem.mp (Token.divides_tokenize text).rising
  have opening := getElem?_tokenize text (Nat.le_trans (Nat.le_add_right start more) within)
  rcases List.getElem?_eq_some_iff.mp opening with ⟨inside, first⟩
  rcases List.getElem?_eq_some_iff.mp (getElem?_tokenize text within) with ⟨below, last⟩
  rw [← first, ← last]
  exact Nat.le_of_lt (rising start (start + more) inside below (by omega))

theorem take_lexemes {count : Nat} (within : count ≤ (Stream.ofText text).following.length) :
    (Token.lexemes text).take count = ((Token.tokenize text).take count).map Token.lexeme := by
  have length : count ≤ (Token.tokenize text).length - 1 := by
    rwa [Stream.length_tokenize, Nat.add_sub_cancel]
  rw [Token.lexemes, ← List.map_take, List.dropLast_eq_take, List.take_take, Nat.min_eq_left length]

theorem Breaks.continued (breaks : Breaks limit (Stream.ofText text) start more earlier fault)
    (shallow : fault ≠ .tooDeep) : ∃ other limit document,
      Parser.parseDocument limit other = .ok document ∧
      (Token.tokenize other).take (start + more) = (Token.tokenize text).take (start + more) := by
  have shows := Stream.shows_ofText text
  have within := breaks.within
  rcases breaks.begins (distinct_ofText text) shows shallow with
    ⟨readable, trees, filler, written, plain⟩
  rcases Token.exists_extended (split_tokenize within) nofun breaks.passes.valid plain with
    ⟨other, tokens, last, extended, spelled⟩
  have lexemes : Token.lexemes other = (Token.lexemes text).take (start + more) ++ filler := by
    rw [Token.lexemes, extended, ← List.append_assoc, List.dropLast_concat, List.map_append,
      spelled, take_lexemes within]
  have fillersReadable : ∀ word ∈ filler, word.Readable := by
    intro word member
    have known := plain word member
    simp only [Token.fillers, List.mem_cons, List.not_mem_nil, or_false] at known
    rcases known with rfl | rfl | rfl | rfl | rfl | rfl | rfl | rfl | rfl <;> exact trivial
  have fits : Phrase.document.Fits (Document.mk trees (Span.empty 0)).nesting
      ⟨trees, Span.empty 0⟩ (Token.lexemes other) := by
    rw [lexemes]
    exact ⟨.intro written, List.forall_mem_append.mpr ⟨readable, fillersReadable⟩,
      Nat.le_refl _⟩
  rcases parseDocument_of_fits fits with ⟨document, done, _⟩
  refine ⟨other, _, document, done, ?_⟩
  rw [extended, List.take_left' (length_take_tokenize within)]

end Refused

/-- A syntax error names a token of the text. Its definition begins at a token that is no later;
cut there, the text is accepted, with the definitions before that one. Every text with the same
tokens up to the one that is named is refused there too, and with the same words. Unless the
nesting is too deep, the tokens before it begin a text that is accepted under some limit, but
together with it they begin none. -/
theorem syntax_errors_point_at_first_misfit (limit : Nat) (text : List Char) (error : SyntaxError)
    (failed : parseDocument limit text = .error error) : ∃ index : Nat,
      (Token.tokenize text)[index]? = some error.failure.found ∧
      (∃ start more earlier opening front back document, start + more = index ∧
        Breaks limit (Stream.ofText text) start more earlier error.failure.fault ∧
        (Token.tokenize text)[start]? = some opening ∧ opening.location = error.definition ∧
        opening.span.start ≤ error.failure.found.span.start ∧ text = front ++ back ∧
        Token.byteCount front = opening.span.start ∧
        error.definition = Location.ofOffset text opening.span.start ∧
        parseDocument limit front = .ok document ∧
        document.definitions.map Definition.openEnded = earlier.map Definition.openEnded) ∧
      (∀ other, BeginAlike (index + 1) text other → ∃ same,
        parseDocument limit other = .error same ∧
        (Token.tokenize other)[index]? = some same.failure.found ∧ same.detail = error.detail) ∧
      (error.failure.fault ≠ .tooDeep →
        (∃ other more document, parseDocument more other = .ok document ∧
          (Token.tokenize other).take index = (Token.tokenize text).take index) ∧
        ∀ other more document, BeginAlike (index + 1) text other →
          parseDocument more other ≠ .ok document) := by
  rcases exists_breaks_ofText failed with ⟨start, more, earlier, fault, breaks, rfl⟩
  have within := breaks.within
  -- A text that begins alike breaks at the same place, and the fault is told alike.
  have alike {other : List Char} (same : BeginAlike (start + more + 1) text other) : ∃ found,
      parseDocument limit other = .error found ∧ found.failure.fault = fault ∧
      (Token.tokenize other)[start + more]? = some found.failure.found ∧
      found.detail = SyntaxError.detail
        ⟨⟨fault, ((Stream.ofText text).skip (start + more)).current⟩,
          ((Stream.ofText text).skip start).current.location, limit⟩ := by
    rcases breaks.alike same with ⟨counterparts, breaksOther⟩
    have here := same.alikeUpTo within (start + more) (Nat.le_refl _)
    exact ⟨_, breaksOther.parseDocument, rfl, getElem?_tokenize other breaksOther.within,
      detail_congr here.1.symm here.2.1.symm _ _⟩
  refine ⟨start + more, getElem?_tokenize text within, ?_, ?_, fun shallow => ⟨?_, ?_⟩⟩
  · rcases breaks.cut with ⟨front, back, document, rfl, bytes, place, done, same⟩
    refine ⟨start, more, earlier, _, front, back, document, rfl, breaks,
      getElem?_tokenize _ (by omega), rfl, start_le within, rfl, bytes, ?_, done, same⟩
    rw [← bytes, Token.ofOffset_byteCount]
    exact place.symm
  · intro other same
    rcases alike same with ⟨found, failed, _, named, detail⟩
    exact ⟨found, failed, named, detail⟩
  · exact breaks.continued shallow
  · intro other more document same done
    rcases alike same with ⟨found, failed, sameFault, _⟩
    exact shallow (sameFault ▸ (tooDeep_of_parseDocument done failed).1)

def unmarkedVariable : List Char := "\x7b a \x7d query q(b: Int) \x7b c \x7d".toList

theorem unmarked_variable_is_misfit : ∃ error index,
    parseDocument 1 unmarkedVariable = .error error ∧
      error.detail = "Expected $, found \"b\"" ∧ error.definition = ⟨1, 7⟩ ∧
      (Token.tokenize unmarkedVariable)[index]? = some error.failure.found ∧
      (∃ other more document, parseDocument more other = .ok document ∧
        (Token.tokenize other).take index = (Token.tokenize unmarkedVariable).take index) ∧
      ∀ other more document, BeginAlike (index + 1) unmarkedVariable other →
        parseDocument more other ≠ .ok document := by
  have failed : parseDocument 1 unmarkedVariable = .error
      ⟨⟨.unexpected (.token .dollar), ⟨.name, "b", ⟨14, 15⟩, ⟨1, 15⟩⟩⟩, ⟨1, 7⟩, 1⟩ := by cbv
  rcases syntax_errors_point_at_first_misfit 1 unmarkedVariable _ failed with
    ⟨index, found, _, _, continues⟩
  exact ⟨_, index, failed, by decide, rfl, found, continues (by decide)⟩

end GraphQuery.Parser
