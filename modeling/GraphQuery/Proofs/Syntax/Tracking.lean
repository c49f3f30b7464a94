import GraphQuery.Proofs.Syntax.Soundness

namespace GraphQuery

/-! Parsers read from left to right. On two streams that begin with the same
tokens a parser does the same, for as long as it looks at no others; and with a
higher nesting limit it does what it did, unless it failed for the limit. -/

def Token.Kind.IsPart (kind : Token.Kind) : Prop := kind ≠ .endOfInput ∧ kind ≠ .invalid

theorem Token.Kind.isPart_of_punctuator {kind : Token.Kind}
    (punctuator : kind.isPunctuator = true) : kind.IsPart := by
  constructor <;> rintro rfl <;> cases punctuator

theorem Token.Kind.isPart_name : Token.Kind.IsPart .name := ⟨nofun, nofun⟩

namespace Parser

/-! ## Places in a stream -/

namespace Stream

def skip : Nat → Stream → Stream
  | 0, stream => stream
  | count + 1, stream => skip count stream.passed

@[simp] theorem skip_zero (stream : Stream) : stream.skip 0 = stream := rfl

theorem skip_skip (count more : Nat) (stream : Stream) :
    (stream.skip count).skip more = stream.skip (count + more) := by
  induction count generalizing stream with
  | zero => rw [Nat.zero_add, skip_zero]
  | succ count induction => rw [Nat.succ_add, skip, induction, skip]

def Ended (stream : Stream) : Prop := ∃ words, stream.Shows words

theorem Shows.skip {stream : Stream} {words : List Lexeme} (shows : stream.Shows words)
    (count : Nat) : (stream.skip count).Shows (words.drop count) := by
  induction count generalizing stream words with
  | zero => exact shows
  | succ count induction =>
      cases shows with
      | done ends => simpa [Stream.skip, Stream.passed] using induction (.done ends)
      | more notEnd others => exact induction others

theorem Ended.skip {stream : Stream} (ended : stream.Ended) (count : Nat) :
    (stream.skip count).Ended := by
  rcases ended with ⟨words, shows⟩
  exact ⟨_, shows.skip count⟩

def Passes (stream : Stream) (count : Nat) : Prop :=
  ∀ index < count, (stream.skip index).current.kind.IsPart

theorem passes_zero (stream : Stream) : stream.Passes 0 := nofun

theorem passes_one {stream : Stream} (part : stream.current.kind.IsPart) : stream.Passes 1 := by
  intro index below
  rw [Nat.lt_one_iff.mp below]
  exact part

theorem Passes.append {stream : Stream} {count more : Nat} (passes : stream.Passes count)
    (further : (stream.skip count).Passes more) : stream.Passes (count + more) := by
  intro index below
  by_cases early : index < count
  · exact passes index early
  · have part := further (index - count) (by omega)
    rwa [skip_skip, Nat.add_sub_cancel' (Nat.le_of_not_lt early)] at part

end Stream

/-! ## How a run ends -/

def outcomeAt {α : Type} (rest : Stream) :
    Except SyntaxFault α → Except SyntaxFailure (α × Stream)
  | .ok found => .ok (found, rest)
  | .error fault => .error ⟨fault, rest.current⟩

/-- The run passes a number of tokens and then ends. -/
structure EndsAt {α : Type} (parser : Parser α) (stream : Stream) (count : Nat)
    (outcome : Except SyntaxFault α) : Prop where
  passes : stream.Passes count
  runs : parser.run stream = outcomeAt (stream.skip count) outcome

def Settles {α : Type} (parser : Parser α) (stream : Stream) : Prop :=
  ∃ count outcome, EndsAt parser stream count outcome

namespace EndsAt

variable {α β : Type} {parser : Parser α} {stream : Stream} {count more : Nat} {value : α}
  {next : α → Parser β}

theorem of_run {other : Parser α} {outcome : Except SyntaxFault α}
    (same : other.run stream = parser.run stream) (ends : EndsAt parser stream count outcome) :
    EndsAt other stream count outcome :=
  ⟨ends.passes, same.trans ends.runs⟩

theorem here {outcome : Except SyntaxFault α}
    (runs : parser.run stream = outcomeAt stream outcome) :
    EndsAt parser stream 0 outcome :=
  ⟨stream.passes_zero, runs⟩

theorem bind {outcome : Except SyntaxFault β} (ends : EndsAt parser stream count (.ok value))
    (further : EndsAt (next value) (stream.skip count) more outcome) :
    EndsAt (parser >>= next) stream (count + more) outcome := by
  refine ⟨ends.passes.append further.passes, ?_⟩
  rw [StateT.run_bind, ends.runs, ← Stream.skip_skip, ← further.runs]
  rfl

theorem bind_fault {fault : SyntaxFault} (ends : EndsAt parser stream count (.error fault))
    (next : α → Parser β) : EndsAt (parser >>= next) stream count (.error fault) := by
  refine ⟨ends.passes, ?_⟩
  rw [StateT.run_bind, ends.runs]
  rfl

theorem settles_bind {outcome : Except SyntaxFault α} (ends : EndsAt parser stream count outcome)
    (settles : ∀ value, Settles (next value) (stream.skip count)) :
    Settles (parser >>= next) stream := by
  cases outcome with
  | error fault => exact ⟨count, .error fault, ends.bind_fault next⟩
  | ok value =>
      rcases settles value with ⟨more, outcome, further⟩
      exact ⟨count + more, outcome, ends.bind further⟩

theorem gives (ends : EndsAt parser stream count (.ok value)) :
    Gives parser stream value (stream.skip count) := ends.runs

end EndsAt

/-- Whatever the parser gives, it takes at least one token for it. -/
def Consumes {α : Type} (item : Parser α) : Prop :=
  ∀ ⦃stream rest : Stream⦄ ⦃value : α⦄, stream.Ended → Gives item stream value rest →
    rest.following.length < stream.following.length

theorem Consumes.of_sound {α : Type} {phrase : Phrase α} {levels : Nat} {item : Parser α}
    (sound : Sound phrase levels item)
    (occupied : ∀ ⦃tree : α⦄ ⦃words : List Lexeme⦄, phrase.Written tree words → words ≠ []) :
    Consumes item := by
  rintro stream rest value ⟨words, shows⟩ gives
  rcases sound shows gives with ⟨taken, others, rfl, left, fits⟩
  have positive := List.length_pos_iff.mpr (occupied fits.written)
  rw [shows.length_following, left.length_following, List.length_append]
  omega

section Accepting

variable {α : Type} {stream : Stream} {kind : Token.Kind}

theorem run_accept_bind_of_at (next : Bool → Parser α)
    (here : stream.current.kind = kind) :
    (accept kind >>= next).run stream = (advance >>= fun _ => next true).run stream := by
  have look : (accept kind >>= next).run stream =
      ((if stream.current.kind == kind then (do advance; return true)
        else return false : Parser Bool) >>= next).run stream := rfl
  rw [look, here, beq_self_eq_true, if_pos rfl, bind_assoc]
  rfl

theorem run_accept_bind_of_not_at (next : Bool → Parser α)
    (elsewhere : stream.current.kind ≠ kind) :
    (accept kind >>= next).run stream = (next false).run stream := by
  have look : (accept kind >>= next).run stream =
      ((if stream.current.kind == kind then (do advance; return true)
        else return false : Parser Bool) >>= next).run stream := rfl
  rw [look, beq_eq_false_iff_ne.mpr elsewhere]
  rfl

end Accepting

/-! ## Comparing two runs -/

structure Comparison where
  /-- Whether the tokens of both stand at the same places. -/
  placed : Prop
  /-- Whether the limit of the second may be higher. -/
  higher : Prop

namespace Comparison

def Alike (comparison : Comparison) (token other : Token) : Prop :=
  token.kind = other.kind ∧ token.text = other.text ∧ (comparison.placed → token = other)

def AlikeUpTo (comparison : Comparison) (shared : Nat) (stream other : Stream) : Prop :=
  ∀ index ≤ shared, comparison.Alike (stream.skip index).current (other.skip index).current

/-- Both runs succeed or have the same fault. -/
inductive Match {α : Type} (comparison : Comparison) :
    Except SyntaxFault α → Except SyntaxFault α → Prop
  | found {value other : α} (same : comparison.placed → value = other) :
      Match comparison (.ok value) (.ok other)
  | fault {fault : SyntaxFault} : Match comparison (.error fault) (.error fault)

/-- Where the first run ends among the tokens that are shared, the second ends too and in
the same way, unless the first ends for its limit. -/
def TracksAt {α : Type} (comparison : Comparison) (shared : Nat) (stream other : Stream)
    (first second : Parser α) : Prop :=
  ∃ count outcome, EndsAt first stream count outcome ∧
    (count ≤ shared → comparison.higher ∧ outcome = .error .tooDeep ∨
      ∃ counterpart, EndsAt second other count counterpart ∧
        comparison.Match outcome counterpart)

def Tracks {α : Type} (comparison : Comparison) (first second : Parser α) : Prop :=
  ∀ ⦃shared : Nat⦄ ⦃stream other : Stream⦄, stream.Ended → other.Ended →
    comparison.AlikeUpTo shared stream other →
    comparison.TracksAt shared stream other first second

section Streams

variable {comparison : Comparison} {shared : Nat} {stream other : Stream}

theorem alike_refl (token : Token) : comparison.Alike token token := ⟨rfl, rfl, fun _ => rfl⟩

theorem alikeUpTo_refl (shared : Nat) (stream : Stream) :
    comparison.AlikeUpTo shared stream stream := fun _ _ => alike_refl _

theorem AlikeUpTo.current (alike : comparison.AlikeUpTo shared stream other) :
    comparison.Alike stream.current other.current := alike 0 (Nat.zero_le _)

theorem AlikeUpTo.skip (alike : comparison.AlikeUpTo shared stream other) {count : Nat}
    (within : count ≤ shared) :
    comparison.AlikeUpTo (shared - count) (stream.skip count) (other.skip count) := by
  intro index bound
  rw [Stream.skip_skip, Stream.skip_skip]
  exact alike (count + index) (by omega)

end Streams

section Steps

variable {comparison : Comparison} {shared : Nat} {stream other : Stream} {α β : Type}
  {first second : Parser α}

theorem TracksAt.settles (tracks : comparison.TracksAt shared stream other first second) :
    Settles first stream := by
  rcases tracks with ⟨count, outcome, ends, _⟩
  exact ⟨count, outcome, ends⟩

theorem Tracks.settles (tracks : comparison.Tracks first second) (ended : stream.Ended) :
    Settles first stream :=
  (tracks ended ended (alikeUpTo_refl 0 stream)).settles

theorem TracksAt.of_runs {left right : Parser α} (same : left.run stream = first.run stream)
    (also : right.run other = second.run other)
    (tracks : comparison.TracksAt shared stream other first second) :
    comparison.TracksAt shared stream other left right := by
  rcases tracks with ⟨count, outcome, ends, follows⟩
  refine ⟨count, outcome, ends.of_run same, fun within => ?_⟩
  rcases follows within with excused | ⟨counterpart, endsSecond, matched⟩
  · exact .inl excused
  · exact .inr ⟨counterpart, endsSecond.of_run also, matched⟩

theorem TracksAt.bind {next nextSecond : α → Parser β}
    (tracks : comparison.TracksAt shared stream other first second)
    (settles : ∀ count value, Gives first stream value (stream.skip count) →
      Settles (next value) (stream.skip count))
    (more : ∀ count value counterpart, count ≤ shared →
      Gives first stream value (stream.skip count) →
      Gives second other counterpart (other.skip count) →
      (comparison.placed → value = counterpart) →
      comparison.TracksAt (shared - count) (stream.skip count) (other.skip count) (next value)
        (nextSecond counterpart)) :
    comparison.TracksAt shared stream other (first >>= next) (second >>= nextSecond) := by
  rcases tracks with ⟨count, outcome, ends, follows⟩
  by_cases within : count ≤ shared
  · rcases follows within with ⟨higher, rfl⟩ | ⟨counterpart, endsSecond, matched⟩
    · exact ⟨count, _, ends.bind_fault next, fun _ => .inl ⟨higher, rfl⟩⟩
    cases matched with
    | fault =>
        exact ⟨count, _, ends.bind_fault next,
          fun _ => .inr ⟨_, endsSecond.bind_fault nextSecond, .fault⟩⟩
    | found same =>
        rcases more count _ _ within ends.gives endsSecond.gives same with
          ⟨further, outcome, endsNext, follows⟩
        refine ⟨count + further, outcome, ends.bind endsNext, fun bound => ?_⟩
        rcases follows (by omega) with excused | ⟨counterpart, endsOther, matched⟩
        · exact .inl excused
        · exact .inr ⟨counterpart, endsSecond.bind endsOther, matched⟩
  · -- What comes after the shared tokens is of no account, but the run has to end.
    cases outcome with
    | error fault => exact ⟨count, _, ends.bind_fault next, fun bound => absurd bound within⟩
    | ok value =>
        rcases settles count value ends.gives with ⟨further, outcome, endsNext⟩
        exact ⟨count + further, outcome, ends.bind endsNext, fun bound => by omega⟩

theorem TracksAt.and_then {next nextSecond : α → Parser β}
    (tracks : comparison.TracksAt shared stream other first second) (ended : stream.Ended)
    (endedOther : other.Ended) (alike : comparison.AlikeUpTo shared stream other)
    (more : ∀ value counterpart, (comparison.placed → value = counterpart) →
      comparison.Tracks (next value) (nextSecond counterpart)) :
    comparison.TracksAt shared stream other (first >>= next) (second >>= nextSecond) := by
  apply tracks.bind
  · intro count value _
    exact (more value value fun _ => rfl).settles (ended.skip count)
  · intro count value counterpart within _ _ same
    exact more value counterpart same (ended.skip count) (endedOther.skip count)
      (alike.skip within)

theorem Tracks.bind {next nextSecond : α → Parser β} (tracks : comparison.Tracks first second)
    (more : ∀ value counterpart, (comparison.placed → value = counterpart) →
      comparison.Tracks (next value) (nextSecond counterpart)) :
    comparison.Tracks (first >>= next) (second >>= nextSecond) :=
  fun _ _ _ ended endedOther alike =>
    (tracks ended endedOther alike).and_then ended endedOther alike more

theorem tracks_pure {value counterpart : α} (same : comparison.placed → value = counterpart) :
    comparison.Tracks (pure value) (pure counterpart) := by
  intro shared stream other _ _ _
  exact ⟨0, .ok value, .here rfl, fun _ => .inr ⟨.ok counterpart, .here rfl, .found same⟩⟩

theorem tracks_fail (fault : SyntaxFault) :
    comparison.Tracks (fail fault : Parser α) (fail fault) := by
  intro shared stream other _ _ _
  exact ⟨0, .error fault, .here rfl, fun _ => .inr ⟨.error fault, .here rfl, .fault⟩⟩

theorem tracks_expected (wanted : Expectation) :
    comparison.Tracks (expected wanted : Parser α) (expected wanted) := tracks_fail _

/-- Where the first parser finds no room left, the second may find some. -/
theorem tracks_tooDeep (higher : comparison.higher) (second : Parser α) :
    comparison.Tracks (fail .tooDeep) second := by
  intro shared stream other _ _ _
  exact ⟨0, .error .tooDeep, .here rfl, fun _ => .inl ⟨higher, rfl⟩⟩

theorem TracksAt.map (tracks : comparison.TracksAt shared stream other first second)
    (change : α → β) :
    comparison.TracksAt shared stream other (change <$> first) (change <$> second) := by
  rw [map_eq_pure_bind, map_eq_pure_bind]
  apply tracks.bind
  · intro count value _
    exact ⟨0, .ok (change value), .here rfl⟩
  · intro count value counterpart _ _ _ same
    exact ⟨0, .ok (change value), .here rfl, fun _ => .inr ⟨.ok (change counterpart), .here rfl,
      .found fun placed => by rw [same placed]⟩⟩

theorem Tracks.map (tracks : comparison.Tracks first second) (change : α → β) :
    comparison.Tracks (change <$> first) (change <$> second) :=
  fun _ _ _ ended endedOther alike => (tracks ended endedOther alike).map change

end Steps

/-! ## Single tokens -/

section Tokens

variable {comparison : Comparison} {shared : Nat} {stream other : Stream} {α : Type}

theorem AlikeUpTo.kind (alike : comparison.AlikeUpTo shared stream other) :
    other.current.kind = stream.current.kind := alike.current.1.symm

theorem AlikeUpTo.text (alike : comparison.AlikeUpTo shared stream other) :
    other.current.text = stream.current.text := alike.current.2.1.symm

theorem AlikeUpTo.advance (alike : comparison.AlikeUpTo shared stream other)
    (part : stream.current.kind.IsPart) :
    comparison.TracksAt shared stream other Parser.advance Parser.advance := by
  have also : other.current.kind.IsPart := by rwa [alike.kind]
  exact ⟨1, .ok (), ⟨Stream.passes_one part, rfl⟩,
    fun _ => .inr ⟨.ok (), ⟨Stream.passes_one also, rfl⟩, .found fun _ => rfl⟩⟩

theorem tracks_current_bind {next nextSecond : Token → Parser α}
    (more : ∀ token counterpart, comparison.Alike token counterpart →
      comparison.Tracks (next token) (nextSecond counterpart)) :
    comparison.Tracks (current >>= next) (current >>= nextSecond) := by
  intro shared stream other ended endedOther alike
  have tracks := more _ _ alike.current ended endedOther alike
  refine TracksAt.of_runs ?_ ?_ tracks <;> rfl

theorem tracks_isAt_bind (kind : Token.Kind) {next nextSecond : Bool → Parser α}
    (more : ∀ here, comparison.Tracks (next here) (nextSecond here)) :
    comparison.Tracks (isAt kind >>= next) (isAt kind >>= nextSecond) := by
  rw [isAt, bind_assoc, bind_assoc]
  apply tracks_current_bind
  intro token counterpart same
  rw [pure_bind, pure_bind, same.1]
  exact more _

theorem tracks_isAtKeyword_bind (word : String) {next nextSecond : Bool → Parser α}
    (more : ∀ here, comparison.Tracks (next here) (nextSecond here)) :
    comparison.Tracks (isAtKeyword word >>= next) (isAtKeyword word >>= nextSecond) := by
  rw [isAtKeyword, bind_assoc, bind_assoc]
  apply tracks_current_bind
  intro token counterpart same
  rw [pure_bind, pure_bind, same.1, same.2.1]
  exact more _

theorem tracks_accept_bind {kind : Token.Kind} (punctuator : kind.isPunctuator = true)
    {next nextSecond : Bool → Parser α}
    (more : ∀ here, comparison.Tracks (next here) (nextSecond here)) :
    comparison.Tracks (accept kind >>= next) (accept kind >>= nextSecond) := by
  intro shared stream other ended endedOther alike
  by_cases here : stream.current.kind = kind
  · have part : stream.current.kind.IsPart := here ▸ Token.Kind.isPart_of_punctuator punctuator
    apply TracksAt.of_runs (run_accept_bind_of_at next here)
      (run_accept_bind_of_at nextSecond (alike.kind.trans here))
    exact (alike.advance part).and_then ended endedOther alike fun _ _ _ => more true
  · apply TracksAt.of_runs (run_accept_bind_of_not_at next here)
      (run_accept_bind_of_not_at nextSecond (alike.kind ▸ here))
    exact more false ended endedOther alike

theorem tracks_expect {kind : Token.Kind} (punctuator : kind.isPunctuator = true) :
    comparison.Tracks (expect kind) (expect kind) := by
  apply tracks_accept_bind punctuator
  intro here
  cases here with
  | true => exact tracks_pure fun _ => rfl
  | false => exact tracks_expected _

theorem tracks_expectKeyword (word : String) :
    comparison.Tracks (expectKeyword word) (expectKeyword word) := by
  intro shared stream other ended endedOther alike
  have look (stream : Stream) : (expectKeyword word).run stream =
      (if stream.current.kind == .name && stream.current.text == word then Parser.advance
        else expected (.keyword word)).run stream := rfl
  apply TracksAt.of_runs (look stream) (look other)
  rw [alike.kind, alike.text]
  split
  next here =>
    rw [Bool.and_eq_true, beq_iff_eq] at here
    exact alike.advance (here.1 ▸ Token.Kind.isPart_name)
  · exact tracks_expected _ ended endedOther alike

theorem tracks_name : comparison.Tracks name name := by
  intro shared stream other ended endedOther alike
  have look (stream : Stream) : name.run stream =
      (if stream.current.kind = .name then do
        Parser.advance
        return ⟨stream.current.text, stream.current.span, stream.current.location⟩
      else expected .name : Parser Name).run stream := rfl
  apply TracksAt.of_runs (look stream) (look other)
  rw [alike.kind]
  split
  next here =>
    apply (alike.advance (here ▸ Token.Kind.isPart_name)).and_then ended endedOther alike
    exact fun _ _ _ => tracks_pure fun placed => by rw [alike.current.2.2 placed]
  · exact tracks_expected _ ended endedOther alike

theorem tracks_spanFrom {start counterpart : Token}
    (same : comparison.placed → start = counterpart) :
    comparison.Tracks (spanFrom start) (spanFrom counterpart) := by
  apply tracks_current_bind
  intro token other alike
  exact tracks_pure fun placed => by rw [same placed, alike.2.2 placed]

theorem Tracks.ifAt {first second : Parser α} (tracks : comparison.Tracks first second)
    (kind : Token.Kind) : comparison.Tracks (ifAt kind first) (ifAt kind second) := by
  apply tracks_isAt_bind
  intro here
  cases here with
  | true => exact tracks.map some
  | false => exact tracks_pure fun _ => rfl

theorem Tracks.ifAfter {first second : Parser α} (tracks : comparison.Tracks first second)
    {kind : Token.Kind} (punctuator : kind.isPunctuator = true) :
    comparison.Tracks (ifAfter kind first) (ifAfter kind second) := by
  apply tracks_accept_bind punctuator
  intro here
  cases here with
  | true => exact tracks.map some
  | false => exact tracks_pure fun _ => rfl

end Tokens

/-! ## Repetition -/

section Repetition

variable {comparison : Comparison} {α : Type} {first second : Parser α} {here : Token → Bool}

/-- The bounds are never reached, so it does not matter that they differ. -/
theorem Tracks.repeatedly (tracks : comparison.Tracks first second) (consumes : Consumes first)
    (also : Consumes second)
    (byKind : ∀ token other : Token, token.kind = other.kind → here token = here other)
    {bound boundSecond shared : Nat} {stream other : Stream} (ended : stream.Ended)
    (endedOther : other.Ended) (alike : comparison.AlikeUpTo shared stream other)
    (enough : stream.following.length < bound)
    (enoughSecond : other.following.length < boundSecond) :
    comparison.TracksAt shared stream other (Parser.repeatedly here first bound)
      (Parser.repeatedly here second boundSecond) := by
  induction bound generalizing boundSecond shared stream other with
  | zero => exact absurd enough (Nat.not_lt_zero _)
  | succ bound induction =>
      obtain ⟨boundSecond, rfl⟩ :=
        Nat.exists_eq_add_one.mpr (Nat.lt_of_le_of_lt (Nat.zero_le _) enoughSecond)
      have look (item : Parser α) (bound : Nat) (stream : Stream) :
          (Parser.repeatedly here item (bound + 1)).run stream =
            (if here stream.current then do
              let value ← item
              let others ← Parser.repeatedly here item bound
              return value :: others
            else return [] : Parser (List α)).run stream := rfl
      apply TracksAt.of_runs (look first bound stream) (look second boundSecond other)
      rw [byKind other.current stream.current alike.kind]
      split
      · apply (tracks ended endedOther alike).bind
        · intro count value gives
          have fewer := consumes ended gives
          have left := ended.skip count
          rcases induction left left (alikeUpTo_refl 0 _) (by omega) (Nat.lt_succ_self _) with
            ⟨further, outcome, ends, _⟩
          exact ends.settles_bind fun others => ⟨0, .ok (value :: others), .here rfl⟩
        · intro count value counterpart within gives givesSecond same
          have fewer := consumes ended gives
          have fewerSecond := also endedOther givesSecond
          apply (induction (ended.skip count) (endedOther.skip count) (alike.skip within)
            (by omega) (by omega)).and_then (ended.skip count) (endedOther.skip count)
              (alike.skip within)
          intro others counterparts sameOthers
          exact tracks_pure fun placed => by rw [same placed, sameOthers placed]
      · exact tracks_pure (fun _ => rfl) ended endedOther alike

theorem Tracks.many (tracks : comparison.Tracks first second) (consumes : Consumes first)
    (also : Consumes second)
    (byKind : ∀ token other : Token, token.kind = other.kind → here token = here other) :
    comparison.Tracks (Parser.many here first) (Parser.many here second) := by
  intro shared stream other ended endedOther alike
  have look (item : Parser α) (stream : Stream) : (Parser.many here item).run stream =
      (Parser.repeatedly here item (stream.following.length + 1)).run stream := rfl
  apply TracksAt.of_runs (look first stream) (look second other)
  exact tracks.repeatedly consumes also byKind ended endedOther alike (Nat.lt_succ_self _)
    (Nat.lt_succ_self _)

variable {closing : Token.Kind}

theorem Tracks.manyUntil (tracks : comparison.Tracks first second) (consumes : Consumes first)
    (also : Consumes second) (punctuator : closing.isPunctuator = true) :
    comparison.Tracks (Parser.manyUntil closing first) (Parser.manyUntil closing second) := by
  have items : comparison.Tracks (Parser.many (fun token => token.kind != closing) first)
      (Parser.many (fun token => token.kind != closing) second) :=
    tracks.many consumes also fun token other same => by rw [same]
  apply items.bind
  intro found counterpart same
  apply (tracks_expect punctuator).bind
  exact fun _ _ _ => tracks_pure same

theorem Tracks.someUntil (tracks : comparison.Tracks first second) (consumes : Consumes first)
    (also : Consumes second) (punctuator : closing.isPunctuator = true) :
    comparison.Tracks (Parser.someUntil closing first) (Parser.someUntil closing second) := by
  apply tracks.bind
  intro value counterpart same
  apply (tracks.manyUntil consumes also punctuator).bind
  intro others counterparts sameOthers
  exact tracks_pure fun placed => by rw [same placed, sameOthers placed]

end Repetition

end Comparison

end Parser

end GraphQuery
