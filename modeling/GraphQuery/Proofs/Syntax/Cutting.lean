import GraphQuery.Proofs.Syntax.Productions

namespace GraphQuery

/-! A definition ends with its closing brace. In a text that is cut anywhere behind
it the definition is read as before: what comes after the brace only shows in
the ends of the spans that are open there. -/

/-! ## Open ends -/

def Span.openEnded (span : Span) : Span := Span.empty span.start

/-- Without the ends of the spans that reach up to the end of the definition. -/
def SelectionSet.openEnded (set : SelectionSet) : SelectionSet :=
  ⟨set.selections, set.span.openEnded⟩

def OperationDefinition.openEnded (definition : OperationDefinition) : OperationDefinition :=
  { definition with
    selectionSet := definition.selectionSet.openEnded, span := definition.span.openEnded }

def FragmentDefinition.openEnded (definition : FragmentDefinition) : FragmentDefinition :=
  { definition with
    selectionSet := definition.selectionSet.openEnded, span := definition.span.openEnded }

def Definition.openEnded : Definition → Definition
  | .operation definition => .operation definition.openEnded
  | .fragment definition => .fragment definition.openEnded

namespace Parser

def repeated : Comparison := ⟨True, False⟩

/-- The run on the first stream ends with a token that it takes. If that is the last token
which is shared, or one before it, then the second run gives what the first one does, but
for what is erased. -/
def ClosesAt {α β : Type} (erase : α → β) (shared : Nat) (stream other : Stream)
    (parser : Parser α) : Prop :=
  ∃ count outcome, EndsAt parser stream count outcome ∧ ∀ value, outcome = .ok value →
    0 < count ∧ (count ≤ shared + 1 → ∃ counterpart,
      EndsAt parser other count (.ok counterpart) ∧ erase counterpart = erase value)

def Closes {α β : Type} (erase : α → β) (parser : Parser α) : Prop :=
  ∀ ⦃shared : Nat⦄ ⦃stream other : Stream⦄, stream.Ended → other.Ended →
    repeated.AlikeUpTo shared stream other → ClosesAt erase shared stream other parser

section Steps

variable {α β γ δ : Type} {erase : α → β} {shared : Nat} {stream other : Stream}
  {parser : Parser α}

theorem ClosesAt.of_runs {same : Parser α} (run : same.run stream = parser.run stream)
    (also : same.run other = parser.run other)
    (closes : ClosesAt erase shared stream other parser) :
    ClosesAt erase shared stream other same := by
  rcases closes with ⟨count, outcome, ends, follows⟩
  refine ⟨count, outcome, ends.of_run run, fun value found => ?_⟩
  rcases follows value found with ⟨positive, reaches⟩
  refine ⟨positive, fun within => ?_⟩
  rcases reaches within with ⟨counterpart, endsOther, erased⟩
  exact ⟨counterpart, endsOther.of_run also, erased⟩

theorem ClosesAt.of_fault {count : Nat} {fault : SyntaxFault}
    (ends : EndsAt parser stream count (.error fault)) :
    ClosesAt erase shared stream other parser :=
  ⟨count, .error fault, ends, nofun⟩

theorem ClosesAt.and_then (closes : ClosesAt erase shared stream other parser)
    {finish : α → Parser γ} {result : α → Stream → γ} {eraseResult : γ → δ}
    (gives : ∀ value rest, Gives (finish value) rest (result value rest) rest)
    (same : ∀ value counterpart rest left, erase counterpart = erase value →
      eraseResult (result counterpart left) = eraseResult (result value rest)) :
    ClosesAt eraseResult shared stream other (parser >>= finish) := by
  rcases closes with ⟨count, outcome, ends, follows⟩
  cases outcome with
  | error fault => exact .of_fault (ends.bind_fault finish)
  | ok value =>
      have finished (value : α) (rest : Stream) :
          EndsAt (finish value) rest 0 (.ok (result value rest)) := .here (gives value rest)
      refine ⟨count, _, ends.bind (finished value _), ?_⟩
      rintro _ ⟨⟩
      rcases follows value rfl with ⟨positive, reaches⟩
      refine ⟨positive, fun within => ?_⟩
      rcases reaches within with ⟨counterpart, endsOther, erased⟩
      exact ⟨_, endsOther.bind (finished counterpart _), same _ _ _ _ erased⟩

theorem closesAt_tracks {next : α → Parser γ} {eraseResult : γ → δ}
    (tracks : repeated.TracksAt shared stream other parser parser) (ended : stream.Ended)
    (endedOther : other.Ended) (alike : repeated.AlikeUpTo shared stream other)
    (closes : ∀ value, Closes eraseResult (next value)) :
    ClosesAt eraseResult shared stream other (parser >>= next) := by
  rcases tracks with ⟨count, outcome, ends, follows⟩
  cases outcome with
  | error fault => exact .of_fault (ends.bind_fault next)
  | ok value =>
      by_cases within : count ≤ shared
      · rcases follows within with ⟨_, failed⟩ | ⟨counterpart, endsOther, matched⟩
        · cases failed
        cases matched with
        | found same =>
            rcases closes value (ended.skip count) (endedOther.skip count) (alike.skip within) with
              ⟨more, outcome, endsNext, follows⟩
            refine ⟨count + more, outcome, ends.bind endsNext, fun found given => ?_⟩
            rcases follows found given with ⟨positive, reaches⟩
            refine ⟨by omega, fun bound => ?_⟩
            rcases reaches (by omega) with ⟨result, endsResult, erased⟩
            rw [← same trivial] at endsOther
            exact ⟨result, endsOther.bind endsResult, erased⟩
      · -- A further token is taken, which is not shared.
        have left := ended.skip count
        rcases closes value left left (Comparison.alikeUpTo_refl 0 _) with
          ⟨more, outcome, endsNext, follows⟩
        refine ⟨count + more, outcome, ends.bind endsNext, fun found given => ?_⟩
        have positive := (follows found given).1
        exact ⟨by omega, fun bound => by omega⟩

theorem Comparison.Tracks.closes {next : α → Parser γ} {eraseResult : γ → δ}
    (tracks : repeated.Tracks parser parser) (closes : ∀ value, Closes eraseResult (next value)) :
    Closes eraseResult (parser >>= next) :=
  fun _ _ _ ended endedOther alike =>
    closesAt_tracks (tracks ended endedOther alike) ended endedOther alike closes

theorem Closes.and_then (closes : Closes erase parser)
    {finish : α → Parser γ} {result : α → Stream → γ} {eraseResult : γ → δ}
    (gives : ∀ value rest, Gives (finish value) rest (result value rest) rest)
    (same : ∀ value counterpart rest left, erase counterpart = erase value →
      eraseResult (result counterpart left) = eraseResult (result value rest)) :
    Closes eraseResult (parser >>= finish) :=
  fun _ _ _ ended endedOther alike => (closes ended endedOther alike).and_then gives same

theorem closes_fail (fault : SyntaxFault) : Closes erase (fail fault) :=
  fun _ _ _ _ _ _ => .of_fault (.here rfl)

theorem closes_expect {closing : Token.Kind} (punctuator : closing.isPunctuator = true) :
    Closes id (expect closing) := by
  intro shared stream other ended endedOther alike
  by_cases here : stream.current.kind = closing
  · have part := Token.Kind.isPart_of_punctuator punctuator
    have ends {stream : Stream} (here : stream.current.kind = closing) :
        EndsAt (expect closing) stream 1 (.ok ()) :=
      ⟨Stream.passes_one (here ▸ part), run_accept_bind_of_at _ here⟩
    refine ⟨1, .ok (), ends here, fun _ _ => ⟨Nat.one_pos, fun _ => ?_⟩⟩
    exact ⟨(), ends (alike.kind.trans here), rfl⟩
  · exact .of_fault (.here (run_accept_bind_of_not_at _ here))

end Steps

/-! ## Selection sets and definitions -/

theorem closes_manyUntil {α : Type} {closing : Token.Kind} {item : Parser α}
    (tracks : repeated.Tracks item item) (consumes : Consumes item)
    (punctuator : closing.isPunctuator = true) : Closes id (manyUntil closing item) := by
  have items : repeated.Tracks (many (fun token => token.kind != closing) item)
      (many (fun token => token.kind != closing) item) :=
    tracks.many consumes consumes fun token other same => by rw [same]
  apply items.closes
  intro found
  exact (closes_expect punctuator).and_then (fun _ _ => gives_return found) fun _ _ _ _ _ => rfl

theorem closes_someUntil {α : Type} {closing : Token.Kind} {item : Parser α}
    (tracks : repeated.Tracks item item) (consumes : Consumes item)
    (punctuator : closing.isPunctuator = true) : Closes id (someUntil closing item) := by
  apply tracks.closes
  intro first
  apply (closes_manyUntil tracks consumes punctuator).and_then
  · exact fun others _ => gives_return (first :: others)
  · exact fun others counterpart _ _ same => congrArg (first :: ·) same

theorem Closes.spanned {α β γ δ : Type} {erase : α → β} {parser : Parser α}
    (closes : Closes erase parser) (first : Token) {build : α → Span → γ} {eraseResult : γ → δ}
    (same : ∀ value counterpart span other, erase counterpart = erase value →
      other.start = span.start →
      eraseResult (build counterpart other) = eraseResult (build value span)) :
    Closes eraseResult (parser >>= fun value => spanFrom first >>= fun span =>
      pure (build value span)) := by
  apply closes.and_then
  · exact fun value rest => (gives_spanFrom first rest).bind (gives_return _)
  · exact fun value counterpart rest left erased => same _ _ _ _ erased rfl

theorem tracks_current : repeated.Tracks current current := by
  rw [← bind_pure current]
  apply Comparison.tracks_current_bind
  exact fun token counterpart same => Comparison.tracks_pure same.2.2

theorem tracks_isAtKeyword (word : String) :
    repeated.Tracks (isAtKeyword word) (isAtKeyword word) := by
  rw [← bind_pure (isAtKeyword word)]
  apply Comparison.tracks_isAtKeyword_bind
  exact fun here => Comparison.tracks_pure fun _ => rfl

theorem closes_selectionSet (levels : Nat) :
    Closes SelectionSet.openEnded (selectionSet levels) := by
  cases levels with
  | zero =>
      have opening : repeated.Tracks (expect .braceOpen) (expect .braceOpen) :=
        Comparison.tracks_expect rfl
      exact opening.closes fun _ => closes_fail _
  | succ levels =>
      have opening : repeated.Tracks (expect .braceOpen) (expect .braceOpen) :=
        Comparison.tracks_expect rfl
      have inner : repeated.Tracks (selection levels (selectionSet levels))
          (selection levels (selectionSet levels)) :=
        (Comparison.tracks_selectionSet (.refl levels)).selection (.refl levels)
      have consumes : Consumes (selection levels (selectionSet levels)) :=
        .of_sound (selection_sound (selectionSet_sound levels)) fun _ _ =>
          chains_selection.occupied
      apply tracks_current.closes
      intro first
      apply opening.closes
      intro _
      apply (closes_someUntil inner consumes rfl).spanned first
      intro selections others span other same start
      rw [id, id] at same
      rw [SelectionSet.openEnded, SelectionSet.openEnded, same, Span.openEnded, Span.openEnded,
        start]

section Definitions

open Comparison

variable {levels : Nat}

theorem closesAt_current_bind {α β : Type} {erase : α → β} {shared : Nat}
    {stream other : Stream} {next : Token → Parser α}
    (alike : repeated.AlikeUpTo shared stream other)
    (closes : ClosesAt erase shared stream other (next stream.current)) :
    ClosesAt erase shared stream other (current >>= next) := by
  have sameToken : stream.current = other.current := alike.current.2.2 trivial
  have look (stream : Stream) : (current >>= next).run stream = (next stream.current).run stream :=
    rfl
  exact closes.of_runs (look stream) (sameToken ▸ look other)

theorem closes_shorthandQuery : Closes OperationDefinition.openEnded (shorthandQuery levels) := by
  apply tracks_current.closes
  intro first
  apply (closes_selectionSet levels).spanned first
  intro set other span otherSpan same start
  simp only [OperationDefinition.openEnded, Span.openEnded, same, start]

theorem closesAt_operation {shared : Nat} {stream other : Stream} (ended : stream.Ended)
    (endedOther : other.Ended) (alike : repeated.AlikeUpTo shared stream other)
    (atName : stream.current.kind = .name) (kind : OperationKind) :
    ClosesAt OperationDefinition.openEnded shared stream other (operation levels kind) := by
  apply closesAt_current_bind alike
  apply closesAt_tracks (alike.advance (atName ▸ Token.Kind.isPart_name)) ended endedOther alike
  intro _
  apply (tracks_name.ifAt .name).closes
  intro label
  apply (tracks_variableDefinitions (.refl levels)).closes
  intro declared
  apply (tracks_directives (.refl levels)).closes
  intro marks
  apply (closes_selectionSet levels).spanned stream.current
  intro set counterpart span otherSpan same start
  simp only [OperationDefinition.openEnded, Span.openEnded, same, start]

theorem closes_fragment : Closes FragmentDefinition.openEnded (fragment levels) := by
  apply tracks_current.closes
  intro first
  apply (tracks_expectKeyword _).closes
  intro _
  apply (tracks_isAtKeyword _).closes
  intro here
  cases here with
  | true => exact closes_fail _
  | false =>
      apply tracks_name.closes
      intro label
      apply (tracks_expectKeyword _).closes
      intro _
      apply tracks_name.closes
      intro condition
      apply (tracks_directives (.refl levels)).closes
      intro marks
      apply (closes_selectionSet levels).spanned first
      intro set other span otherSpan same start
      simp only [FragmentDefinition.openEnded, Span.openEnded, same, start]

theorem closes_definition : Closes Definition.openEnded (definition levels) := by
  intro shared stream other ended endedOther alike
  have wrapped {α : Type} {parser : Parser α} {erase : α → α} {wrap : α → Definition}
      (closes : ClosesAt erase shared stream other parser)
      (opens : ∀ tree, (wrap tree).openEnded = wrap (erase tree)) :
      ClosesAt Definition.openEnded shared stream other (wrap <$> parser) := by
    rw [map_eq_pure_bind]
    apply closes.and_then fun tree _ => gives_return (wrap tree)
    exact fun tree counterpart _ _ same => by rw [opens, opens, same]
  apply closesAt_current_bind alike
  cases here : stream.current.kind with
  | braceOpen => exact wrapped (closes_shorthandQuery ended endedOther alike) fun _ => rfl
  | name =>
      dsimp only
      split
      · exact wrapped (closesAt_operation ended endedOther alike here _) fun _ => rfl
      · split
        · exact wrapped (closes_fragment ended endedOther alike) fun _ => rfl
        · exact closes_fail _ ended endedOther alike
  | _ => exact closes_fail _ ended endedOther alike

end Definitions

end Parser

end GraphQuery
