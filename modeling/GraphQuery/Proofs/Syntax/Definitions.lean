import GraphQuery.Proofs.Syntax.Cutting
import GraphQuery.Proofs.Syntax.Layout
import GraphQuery.Proofs.Syntax.NestingLimit
import GraphQuery.Proofs.Syntax.Viability

namespace GraphQuery.Parser

/-! Definitions are read one after another. Each run ends at a place of its own, and
the places count from the first token of the text. -/

/-! ## Places in a text -/

namespace Stream

variable {stream : Stream} {count : Nat}

def tokens (stream : Stream) : List Token := stream.current :: stream.following

theorem tokens_ofText (text : List Char) : (ofText text).tokens = Token.tokenize text := by
  rcases Token.tokenize_ends text with ⟨words, last, found, _, _⟩
  rw [ofText, found]
  cases words <;> rfl

theorem length_tokenize (text : List Char) :
    (Token.tokenize text).length = (ofText text).following.length + 1 := by
  rw [← tokens_ofText, tokens, List.length_cons]

theorem tokens_skip (within : count ≤ stream.following.length) :
    (stream.skip count).tokens = stream.tokens.drop count := by
  induction count generalizing stream with
  | zero => rfl
  | succ count induction =>
      rcases stream with ⟨current, _ | ⟨next, following⟩⟩
      · cases within
      · exact induction (Nat.le_of_succ_le_succ within)

theorem getElem?_tokens (within : count ≤ stream.following.length) :
    stream.tokens[count]? = some (stream.skip count).current := by
  rw [← Nat.add_zero count, ← List.getElem?_drop, ← tokens_skip within]
  rfl

theorem eq_of_current_eq {more : Nat} (distinct : stream.tokens.Nodup)
    (within : count ≤ stream.following.length) (also : more ≤ stream.following.length)
    (same : (stream.skip count).current = (stream.skip more).current) : count = more := by
  apply (List.getElem?_inj (Nat.lt_succ_of_le within) distinct).mp
  rw [getElem?_tokens within, getElem?_tokens also, same]

theorem nodup_skip (distinct : stream.tokens.Nodup) (within : count ≤ stream.following.length) :
    (stream.skip count).tokens.Nodup := by
  rw [tokens_skip within]
  exact distinct.drop

end Stream

theorem nodup_tokenize (text : List Char) : (Token.tokenize text).Nodup := by
  apply (Token.divides_tokenize text).rising.imp
  rintro token _ below rfl
  exact Nat.lt_irrefl _ below

section Ends

variable {α : Type} {parser : Parser α} {stream : Stream} {count more : Nat}
  {outcome other : Except SyntaxFault α}

theorem eq_of_outcomeAt_eq (distinct : stream.tokens.Nodup)
    (within : count ≤ stream.following.length) (also : more ≤ stream.following.length)
    (same : outcomeAt (stream.skip count) outcome = outcomeAt (stream.skip more) other) :
    count = more ∧ outcome = other := by
  have agrees : (stream.skip count).current = (stream.skip more).current ∧ outcome = other := by
    cases outcome with
    | ok value =>
        cases other with
        | ok counterpart =>
            obtain ⟨rfl, left⟩ := Prod.mk.inj (Except.ok.inj same)
            exact ⟨congrArg Stream.current left, rfl⟩
        | error fault => cases same
    | error fault =>
        cases other with
        | ok counterpart => cases same
        | error also =>
            obtain ⟨rfl, left⟩ := SyntaxFailure.mk.inj (Except.error.inj same)
            exact ⟨left, rfl⟩
  exact ⟨Stream.eq_of_current_eq distinct within also agrees.1, agrees.2⟩

theorem EndsAt.unique (distinct : stream.tokens.Nodup) (ended : stream.Ended)
    (ends : EndsAt parser stream count outcome) (also : EndsAt parser stream more other) :
    count = more ∧ outcome = other :=
  eq_of_outcomeAt_eq distinct (ends.passes.count_le ended) (also.passes.count_le ended)
    (ends.runs.symm.trans also.runs)

theorem EndsAt.ending {fits : α → List Lexeme → Prop} {begins : List Lexeme → Prop}
    {words : List Lexeme} (ends : EndsAt parser stream count outcome)
    (explains : Explains parser fits begins) (distinct : stream.tokens.Nodup)
    (shows : stream.Shows words) : Ending parser stream fits begins (words.take count) := by
  rcases explains shows with ⟨taken, others, rfl, ending⟩
  have within : taken.length ≤ stream.following.length := by
    rw [shows.length_following, List.length_append]
    exact Nat.le_add_right _ _
  have atTaken : ∃ other : Except SyntaxFault α,
      parser.run stream = outcomeAt (stream.skip taken.length) other := by
    cases ending with
    | @given value gives fit => exact ⟨.ok value, gives⟩
    | @failed fault run begin => exact ⟨.error fault, run⟩
  rcases atTaken with ⟨other, run⟩
  obtain ⟨rfl, _⟩ := eq_of_outcomeAt_eq distinct (ends.passes.count_le ⟨_, shows⟩) within
    (ends.runs.symm.trans run)
  rwa [List.take_left]

end Ends

/-! ## One definition after another -/

/-- From here these definitions are read, and they take this many tokens. -/
inductive Reads (limit : Nat) : Stream → Nat → List Definition → Prop
  | nil (stream : Stream) : Reads limit stream 0 []
  | cons {stream : Stream} {count more : Nat} {first : Definition} {others : List Definition}
      (ends : EndsAt (definition limit) stream count (.ok first)) (positive : 0 < count)
      (rest : Reads limit (stream.skip count) more others) :
      Reads limit stream (count + more) (first :: others)

/-- These definitions are read, and the one that comes next fails after so many tokens more. -/
structure Breaks (limit : Nat) (stream : Stream) (start more : Nat)
    (earlier : List Definition) (fault : SyntaxFault) : Prop where
  reads : Reads limit stream start earlier
  inside : (stream.skip start).current.kind ≠ .endOfInput
  ends : EndsAt (definition limit) (stream.skip start) more (.error fault)

section Runs

variable {limit bound count : Nat} {stream other : Stream} {found : List Definition}

theorem settles_definition (limit : Nat) (ended : stream.Ended) :
    Settles (definition limit) stream := by
  have tracks : repeated.Tracks (definition limit) (definition limit) :=
    Comparison.tracks_definition (.refl limit)
  exact tracks.settles ended

theorem EndsAt.positive {first : Definition} (ended : stream.Ended)
    (ends : EndsAt (definition limit) stream count (.ok first)) : 0 < count := by
  have consumes : Consumes (definition limit) :=
    .of_sound (definition_sound limit) fun _ _ => definition_occupied
  have fewer := consumes ended ends.gives
  apply Nat.pos_of_ne_zero
  rintro rfl
  exact Nat.lt_irrefl _ fewer

theorem Reads.passes (reads : Reads limit stream count found) : stream.Passes count := by
  induction reads with
  | nil stream => exact stream.passes_zero
  | cons ends _ _ induction => exact ends.passes.append induction

theorem Reads.length_le (reads : Reads limit stream count found) : found.length ≤ count := by
  induction reads with
  | nil => exact Nat.le_refl 0
  | cons ends positive _ induction =>
      rw [List.length_cons]
      omega

theorem definitions_of_gives {first : Definition} {rest : Stream}
    (inside : stream.current.kind ≠ .endOfInput)
    (gives : Gives (definition limit) stream first rest) :
    definitions limit (bound + 1) stream =
      (definitions limit bound rest).map fun more => (first :: more.1, more.2) := by
  rw [definitions, if_neg inside, gives]
  dsimp only
  cases definitions limit bound rest <;> rfl

theorem definitions_of_fault {fault : SyntaxFault} (inside : stream.current.kind ≠ .endOfInput)
    (ends : EndsAt (definition limit) stream count (.error fault)) :
    definitions limit (bound + 1) stream =
      .error ⟨⟨fault, (stream.skip count).current⟩, stream.current.location, limit⟩ := by
  rw [definitions, if_neg inside, ends.runs]
  rfl

theorem Reads.definitions (reads : Reads limit stream count found)
    (atEnd : (stream.skip count).current.kind = .endOfInput) (enough : found.length ≤ bound) :
    definitions limit bound stream = .ok (found, stream.skip count) := by
  induction reads generalizing bound with
  | nil stream =>
      rw [Stream.skip_zero] at atEnd
      cases bound with
      | zero => rfl
      | succ bound => rw [Parser.definitions, if_pos atEnd, Stream.skip_zero]
  | @cons stream count more first others ends positive rest induction =>
      obtain ⟨bound, rfl⟩ := Nat.exists_eq_add_one.mpr (Nat.zero_lt_of_lt enough)
      rw [Stream.skip_skip] at induction
      have inside : stream.current.kind ≠ .endOfInput := (ends.passes 0 positive).1
      rw [definitions_of_gives inside ends.gives,
        induction atEnd (Nat.le_of_succ_le_succ enough)]
      rfl

theorem Breaks.definitions {start more : Nat} {fault : SyntaxFault}
    (breaks : Breaks limit stream start more found fault) (enough : found.length < bound) :
    definitions limit bound stream =
      .error ⟨⟨fault, (stream.skip (start + more)).current⟩, (stream.skip start).current.location,
        limit⟩ := by
  rcases breaks with ⟨reads, inside, failed⟩
  rw [← Stream.skip_skip]
  induction reads generalizing bound with
  | nil stream =>
      obtain ⟨bound, rfl⟩ := Nat.exists_eq_add_one.mpr enough
      exact definitions_of_fault inside failed
  | @cons stream count further first others ends positive rest induction =>
      obtain ⟨bound, rfl⟩ := Nat.exists_eq_add_one.mpr (Nat.zero_lt_of_lt enough)
      rw [← Stream.skip_skip] at inside failed ⊢
      have begins : stream.current.kind ≠ .endOfInput := (ends.passes 0 positive).1
      rw [definitions_of_gives begins ends.gives,
        induction (Nat.lt_of_succ_lt_succ enough) inside failed]
      rfl

theorem exists_reads {rest : Stream} (ended : stream.Ended)
    (given : definitions limit bound stream = .ok (found, rest)) :
    ∃ count, Reads limit stream count found ∧ rest = stream.skip count := by
  induction bound generalizing stream found with
  | zero =>
      cases given
      exact ⟨0, .nil _, rfl⟩
  | succ bound induction =>
      by_cases inside : stream.current.kind = .endOfInput
      · rw [Parser.definitions, if_pos inside] at given
        cases given
        exact ⟨0, .nil _, rfl⟩
      rcases settles_definition limit ended with ⟨count, outcome, ends⟩
      cases outcome with
      | error fault =>
          rw [definitions_of_fault inside ends] at given
          cases given
      | ok first =>
          rw [definitions_of_gives inside ends.gives] at given
          cases later : definitions limit bound (stream.skip count) with
          | error other =>
              rw [later] at given
              cases given
          | ok more =>
              rw [later] at given
              cases given
              rcases induction (ended.skip count) later with ⟨others, reads, same⟩
              rw [Stream.skip_skip] at same
              exact ⟨count + others, .cons ends (ends.positive ended) reads, same⟩

theorem exists_breaks {error : SyntaxError} (ended : stream.Ended)
    (failed : definitions limit bound stream = .error error) :
    ∃ start more earlier fault, Breaks limit stream start more earlier fault ∧
      error = ⟨⟨fault, (stream.skip (start + more)).current⟩,
        (stream.skip start).current.location, limit⟩ := by
  induction bound generalizing stream with
  | zero => cases failed
  | succ bound induction =>
      by_cases inside : stream.current.kind = .endOfInput
      · rw [Parser.definitions, if_pos inside] at failed
        cases failed
      rcases settles_definition limit ended with ⟨count, outcome, ends⟩
      cases outcome with
      | error fault =>
          rw [definitions_of_fault inside ends] at failed
          cases failed
          refine ⟨0, count, [], fault, ⟨.nil stream, inside, ends⟩, ?_⟩
          rw [Nat.zero_add, Stream.skip_zero]
      | ok first =>
          rw [definitions_of_gives inside ends.gives] at failed
          cases later : definitions limit bound (stream.skip count) with
          | ok more =>
              rw [later] at failed
              cases failed
          | error other =>
              rw [later] at failed
              cases failed
              rcases induction (ended.skip count) later with
                ⟨start, more, earlier, fault, ⟨reads, begins, broken⟩, same⟩
              rw [Stream.skip_skip] at begins broken same
              rw [Stream.skip_skip, ← Nat.add_assoc] at same
              exact ⟨count + start, more, first :: earlier, fault,
                ⟨.cons ends (ends.positive ended) reads, begins, broken⟩, same⟩

end Runs

/-! ## The same definitions in another text -/

def matching : Comparison := ⟨False, False⟩

section Transfer

variable {limit shared count : Nat} {stream other : Stream} {found : List Definition}

theorem EndsAt.matching {outcome : Except SyntaxFault Definition}
    (ends : EndsAt (definition limit) stream count outcome) (distinct : stream.tokens.Nodup)
    (ended : stream.Ended) (endedOther : other.Ended)
    (alike : matching.AlikeUpTo shared stream other) (within : count ≤ shared) :
    ∃ counterpart, EndsAt (definition limit) other count counterpart ∧
      matching.Match outcome counterpart := by
  have tracks : Parser.matching.Tracks (definition limit) (definition limit) :=
    Comparison.tracks_definition (.refl limit)
  rcases tracks ended endedOther alike with ⟨place, result, endsAlso, follows⟩
  obtain ⟨rfl, rfl⟩ := ends.unique distinct ended endsAlso
  rcases follows within with ⟨higher, _⟩ | found
  · exact absurd higher id
  · exact found

theorem Reads.matching (reads : Reads limit stream count found)
    (distinct : stream.tokens.Nodup) (ended : stream.Ended) (endedOther : other.Ended)
    (alike : matching.AlikeUpTo shared stream other) (within : count ≤ shared) :
    ∃ counterparts, Reads limit other count counterparts := by
  induction reads generalizing shared other with
  | nil stream => exact ⟨[], .nil other⟩
  | @cons stream count more first others ends positive rest induction =>
      have room : count ≤ shared := Nat.le_trans (Nat.le_add_right _ _) within
      rcases ends.matching distinct ended endedOther alike room with ⟨_, endsOther, matched⟩
      cases matched with
      | found same =>
          have left := Stream.nodup_skip distinct (ends.passes.count_le ended)
          rcases induction left (ended.skip count) (endedOther.skip count) (alike.skip room)
            (by omega) with ⟨counterparts, further⟩
          exact ⟨_, .cons endsOther positive further⟩

/-- A text that is cut behind definitions has these definitions, with other ends. -/
theorem Reads.cut (reads : Reads limit stream count found) (distinct : stream.tokens.Nodup)
    (ended : stream.Ended) (endedOther : other.Ended)
    (same : ∀ index < count, (stream.skip index).current = (other.skip index).current) :
    ∃ counterparts, Reads limit other count counterparts ∧
      counterparts.map Definition.openEnded = found.map Definition.openEnded := by
  induction reads generalizing other with
  | nil stream => exact ⟨[], .nil other, rfl⟩
  | @cons stream count more first others ends positive rest induction =>
      -- The closing brace of this definition may be the last token that is shared.
      have alike : repeated.AlikeUpTo (count - 1) stream other := by
        intro index bound
        rw [same index (by omega)]
        exact Comparison.alike_refl _
      rcases closes_definition ended endedOther alike with ⟨place, result, endsAlso, follows⟩
      obtain ⟨rfl, rfl⟩ := ends.unique distinct ended endsAlso
      rcases (follows first rfl).2 (by omega) with ⟨counterpart, endsOther, erased⟩
      have left := Stream.nodup_skip distinct (ends.passes.count_le ended)
      rcases induction left (ended.skip count) (endedOther.skip count) (by
        intro index below
        rw [Stream.skip_skip, Stream.skip_skip]
        exact same (count + index) (by omega)) with ⟨counterparts, further, sameOthers⟩
      refine ⟨counterpart :: counterparts, .cons endsOther positive further, ?_⟩
      rw [List.map_cons, List.map_cons, erased, sameOthers]

end Transfer

/-! ## The words of what is read -/

/-- Unless they nest too deeply, the words before the place of a fault begin definitions. -/
theorem Breaks.begins {limit start more : Nat} {stream : Stream} {earlier : List Definition}
    {fault : SyntaxFault} {words : List Lexeme}
    (breaks : Breaks limit stream start more earlier fault) (distinct : stream.tokens.Nodup)
    (shows : stream.Shows words) (shallow : fault ≠ .tooDeep) :
    (Phrase.definition.sequence []).Begins (words.take (start + more)) := by
  rcases breaks with ⟨reads, inside, broken⟩
  -- The definitions before are whole; only what the last run takes is a beginning.
  induction reads generalizing words with
  | nil stream =>
      rw [Nat.zero_add]
      cases broken.ending (viable_definition limit).explains distinct shows with
      | given gives fit =>
          rw [Gives, broken.runs] at gives
          cases gives
      | failed run begin =>
          rw [broken.runs] at run
          obtain ⟨rfl, _⟩ := SyntaxFailure.mk.inj (Except.error.inj run)
          exact (begin shallow).sequence
  | @cons stream count further first others ends positive rest induction =>
      rw [← Stream.skip_skip] at inside broken
      have left := Stream.nodup_skip distinct (ends.passes.count_le ⟨_, shows⟩)
      rw [Nat.add_assoc, List.take_add]
      cases ends.ending (viable_definition limit).fits distinct shows with
      | failed run begin =>
          rw [ends.runs] at run
          cases run
      | given gives fit => exact (induction left (shows.skip count) inside broken).sequence_cons fit

end GraphQuery.Parser
