import GraphQuery.Proofs.Selection.Ownership
import GraphQuery.Proofs.Syntax.Cutting
import GraphQuery.Proofs.Syntax.Layout

/-! The fields of a document that has been read stand at different places of the source:
each begins with a token of its own, and they are read in the order of the tokens. -/

namespace GraphQuery

namespace Parser

/-! ## Streams -/

namespace Stream

def start (stream : Stream) : Nat := stream.current.span.start

structure Rising (stream : Stream) : Prop where
  ended : stream.Ended
  starts : (stream.current :: stream.following).Pairwise fun first second =>
    first.span.start < second.span.start

theorem rising_ofText (text : List Char) : (ofText text).Rising := by
  refine ⟨⟨_, shows_ofText text⟩, ?_⟩
  have rising := (Token.divides_tokenize text).rising
  unfold ofText
  cases tokens : Token.tokenize text with
  | nil => simp
  | cons current following => rwa [tokens] at rising

theorem Rising.passed {stream : Stream} (rising : stream.Rising)
    (part : stream.current.kind.IsPart) :
    stream.passed.Rising ∧ stream.start < stream.passed.start := by
  obtain ⟨⟨words, shows⟩, starts⟩ := rising
  cases shows with
  | done ends => exact absurd ends part.1
  | more _ others =>
      rw [List.pairwise_cons] at starts
      exact ⟨⟨⟨_, others⟩, starts.2⟩, starts.1 _ List.mem_cons_self⟩

end Stream

/-- Places that lie, one after the other, between those of two streams, of which the second
is what is left of the first. -/
structure Between (stream rest : Stream) (places : List Nat) : Prop where
  rising : rest.Rising
  start_le : stream.start ≤ rest.start
  sorted : places.Pairwise (· < ·)
  within : ∀ place ∈ places, stream.start ≤ place ∧ place < rest.start

namespace Between

variable {stream between rest : Stream} {places others : List Nat}

theorem refl (rising : stream.Rising) : Between stream stream [] :=
  ⟨rising, Nat.le_refl _, .nil, nofun⟩

theorem append (first : Between stream between places) (second : Between between rest others) :
    Between stream rest (places ++ others) where
  rising := second.rising
  start_le := Nat.le_trans first.start_le second.start_le
  sorted := by
    refine List.pairwise_append.mpr ⟨first.sorted, second.sorted, ?_⟩
    intro place before other after
    exact Nat.lt_of_lt_of_le (first.within place before).2 (second.within other after).1
  within := by
    intro place member
    rcases List.mem_append.mp member with before | after
    · have bounds := first.within place before
      exact ⟨bounds.1, Nat.lt_of_lt_of_le bounds.2 second.start_le⟩
    · have bounds := second.within place after
      exact ⟨Nat.le_trans first.start_le bounds.1, bounds.2⟩

theorem passed (rising : stream.Rising) (part : stream.current.kind.IsPart) :
    Between stream stream.passed [] :=
  ⟨(rising.passed part).1, Nat.le_of_lt (rising.passed part).2, .nil, nofun⟩

theorem taken (rising : stream.Rising) (part : stream.current.kind.IsPart) :
    Between stream stream.passed [stream.start] := by
  have step := rising.passed part
  refine ⟨step.1, Nat.le_of_lt step.2, List.pairwise_singleton _ _, fun place single => ?_⟩
  rw [List.mem_singleton.mp single]
  exact ⟨Nat.le_refl _, step.2⟩

theorem of_passes {count : Nat} (rising : stream.Rising) (passes : stream.Passes count) :
    Between stream (stream.skip count) [] := by
  induction count generalizing stream with
  | zero => exact refl rising
  | succ count induction =>
      have here := passes 0 (Nat.succ_pos count)
      have step := passed rising here
      exact step.append (induction step.rising fun index below =>
        passes (index + 1) (Nat.succ_lt_succ below))

end Between

/-! ## Parsers -/

def Places {α : Type} (places : α → List Nat) (parser : Parser α) : Prop :=
  ∀ ⦃stream rest : Stream⦄ ⦃found : α⦄, stream.Rising → Gives parser stream found rest →
    Between stream rest (places found)

section Repetition

variable {α β : Type} {places : α → List Nat} {parser item : Parser α} {stream rest : Stream}
  {found : α}

theorem Comparison.Tracks.between (tracks : repeated.Tracks parser parser)
    (rising : stream.Rising) (gives : Gives parser stream found rest) :
    Between stream rest [] := by
  obtain ⟨count, outcome, ends⟩ := tracks.settles rising.ended
  have same := ends.runs.symm.trans gives
  cases outcome with
  | error fault => cases same
  | ok value =>
      cases same
      exact .of_passes rising ends.passes

theorem Places.repeatedly (gives : Places places item) (here : Token → Bool) (bound : Nat) :
    Places (List.flatMap places) (repeatedly here item bound) := by
  induction bound with
  | zero =>
      intro stream rest found rising given
      obtain ⟨rfl, rfl⟩ := gives_pure.mp given
      exact .refl rising
  | succ bound induction =>
      intro stream rest found rising given
      rw [Parser.repeatedly, gives_current_bind] at given
      split at given
      · obtain ⟨first, between, head, given⟩ := gives_bind.mp given
        obtain ⟨others, _, tail, given⟩ := gives_bind.mp given
        obtain ⟨rfl, rfl⟩ := gives_pure.mp given
        have step := gives rising head
        exact step.append (induction step.rising tail)
      · obtain ⟨rfl, rfl⟩ := gives_pure.mp given
        exact .refl rising

theorem Places.someUntil {closing : Token.Kind} (punctuator : closing.isPunctuator = true)
    (gives : Places places item) :
    Places (List.flatMap places) (someUntil closing item) := by
  intro stream rest found rising given
  obtain ⟨first, between, head, given⟩ := gives_bind.mp given
  obtain ⟨others, _, tail, given⟩ := gives_bind.mp given
  obtain ⟨rfl, rfl⟩ := gives_pure.mp given
  obtain ⟨items, last, many, given⟩ := gives_bind.mp tail
  obtain ⟨closes, given⟩ := gives_expect_bind.mp given
  obtain ⟨rfl, rfl⟩ := gives_pure.mp given
  have step := gives rising head
  have steps := gives.repeatedly _ _ step.rising (gives_get_bind.mp many)
  have part := closes ▸ Token.Kind.isPart_of_punctuator punctuator
  simpa using step.append (steps.append (.passed steps.rising part))

end Repetition

/-! ## Selections -/

open Comparison

variable {levels : Nat} {stream rest : Stream}

theorem between_arguments {found : List Argument} (rising : stream.Rising)
    (gives : Gives (arguments levels) stream found rest) : Between stream rest [] :=
  (tracks_arguments (.refl levels)).between rising gives

theorem between_directives {found : List Directive} (rising : stream.Rising)
    (gives : Gives (directives levels) stream found rest) : Between stream rest [] :=
  (tracks_directives (.refl levels)).between rising gives

theorem between_fieldNames {found : Option Name × Name} (rising : stream.Rising)
    (gives : Gives fieldNames stream found rest) : Between stream rest [stream.start] := by
  obtain ⟨atName, gives⟩ := gives_name_bind.mp gives
  have first := Between.taken rising (atName ▸ Token.Kind.isPart_name)
  rcases gives_accept_bind.mp gives with ⟨atColon, gives⟩ | ⟨_, gives⟩
  · have colon := Between.passed first.rising (atColon ▸ Token.Kind.isPart_of_punctuator rfl)
    obtain ⟨atName, gives⟩ := gives_name_bind.mp gives
    obtain ⟨rfl, rfl⟩ := gives_pure.mp gives
    have second := Between.passed colon.rising (atName ▸ Token.Kind.isPart_name)
    exact first.append (colon.append second)
  · obtain ⟨rfl, rfl⟩ := gives_pure.mp gives
    exact first

section Selections

def placesOf (selection : Selection) : List Nat := selection.nodes.map Field.place

def placesOfSet (set : SelectionSet) : List Nat := set.nodes.map Field.place

variable {set : Parser SelectionSet}

theorem Places.fieldSelection (inner : Places placesOfSet set) :
    Places placesOf (fieldSelection levels set) := by
  intro stream rest found rising gives
  rw [Parser.fieldSelection, gives_current_bind] at gives
  obtain ⟨names, _, named, gives⟩ := gives_bind.mp gives
  obtain ⟨values, _, given, gives⟩ := gives_bind.mp gives
  obtain ⟨marks, _, marked, gives⟩ := gives_bind.mp gives
  obtain ⟨set?, _, followed, ends⟩ := gives_bind.mp gives
  have head := between_fieldNames rising named
  have values := head.append (between_arguments head.rising given)
  have marks := values.append (between_directives values.rising marked)
  rw [gives_spanFrom_bind] at ends
  rcases gives_ifAt.mp followed with ⟨_, set, read, rfl⟩ | ⟨_, rfl, rfl⟩
  · obtain ⟨rfl, rfl⟩ := gives_pure.mp ends
    exact marks.append (inner marks.rising read)
  · obtain ⟨rfl, rfl⟩ := gives_pure.mp ends
    exact marks

theorem Places.inlineFragment (inner : Places placesOfSet set) (first : Token)
    (condition : Option Name) : Places placesOf (inlineFragment levels set first condition) := by
  intro stream rest found rising gives
  obtain ⟨marks, _, marked, gives⟩ := gives_bind.mp gives
  obtain ⟨body, _, read, gives⟩ := gives_bind.mp gives
  rw [gives_spanFrom_bind] at gives
  obtain ⟨rfl, rfl⟩ := gives_pure.mp gives
  have marks := between_directives rising marked
  exact marks.append (inner marks.rising read)

theorem Places.fragmentSelection (inner : Places placesOfSet set) (first : Token) :
    Places placesOf (fragmentSelection levels set first) := by
  intro stream rest found rising gives
  rw [Parser.fragmentSelection, gives_isAtKeyword_bind] at gives
  split at gives
  · rename_i atKeyword
    rw [Bool.and_eq_true, beq_iff_eq] at atKeyword
    rw [gives_advance_bind] at gives
    obtain ⟨atName, gives⟩ := gives_name_bind.mp gives
    have keyword := Between.passed rising (atKeyword.1 ▸ Token.Kind.isPart_name)
    have condition := keyword.append
      (.passed keyword.rising (atName ▸ Token.Kind.isPart_name))
    exact condition.append (inner.inlineFragment first _ condition.rising gives)
  · rw [gives_isAt_bind, gives_isAt_bind] at gives
    split at gives
    · exact inner.inlineFragment first none rising gives
    · obtain ⟨atName, gives⟩ := gives_name_bind.mp gives
      obtain ⟨marks, _, marked, gives⟩ := gives_bind.mp gives
      rw [gives_spanFrom_bind] at gives
      obtain ⟨rfl, rfl⟩ := gives_pure.mp gives
      have label := Between.passed rising (atName ▸ Token.Kind.isPart_name)
      exact label.append (between_directives label.rising marked)

theorem Places.selection (inner : Places placesOfSet set) :
    Places placesOf (selection levels set) := by
  intro stream rest found rising gives
  rw [Parser.selection, gives_current_bind] at gives
  rcases gives_accept_bind.mp gives with ⟨atDots, gives⟩ | ⟨_, gives⟩
  · have dots := Between.passed rising (atDots ▸ Token.Kind.isPart_of_punctuator rfl)
    exact dots.append (inner.fragmentSelection _ dots.rising gives)
  · exact inner.fieldSelection rising gives

theorem placesOfSet_eq (selections : List Selection) (braces : Span) :
    placesOfSet ⟨selections, braces⟩ = selections.flatMap placesOf := by
  rw [placesOfSet, SelectionSet.nodes]
  induction selections with
  | nil => rfl
  | cons selection rest induction =>
      rw [Selection.nodesAmong, List.map_append, induction]
      rfl

theorem places_selectionSet (levels : Nat) : Places placesOfSet (selectionSet levels) := by
  induction levels with
  | zero =>
      intro stream rest found rising gives
      obtain ⟨_, gives⟩ := gives_expect_bind.mp gives
      exact absurd gives not_gives_fail
  | succ levels induction =>
      intro stream rest found rising gives
      rw [selectionSet, gives_current_bind] at gives
      obtain ⟨atBrace, gives⟩ := gives_expect_bind.mp gives
      obtain ⟨selections, _, read, gives⟩ := gives_bind.mp gives
      rw [gives_spanFrom_bind] at gives
      obtain ⟨rfl, rfl⟩ := gives_pure.mp gives
      have brace := Between.passed rising (atBrace ▸ Token.Kind.isPart_of_punctuator rfl)
      have body := Places.someUntil rfl induction.selection brace.rising read
      have whole := brace.append body
      rwa [← placesOfSet_eq] at whole

end Selections

/-! ## Definitions -/

def placesOfDefinition (definition : Definition) : List Nat :=
  placesOfSet definition.selectionSet

theorem places_operation (kind : OperationKind) {found : OperationDefinition}
    (rising : stream.Rising) (atName : stream.current.kind = .name)
    (gives : Gives (operation levels kind) stream found rest) :
    Between stream rest (placesOfSet found.selectionSet) := by
  rw [operation, gives_current_bind, gives_advance_bind] at gives
  obtain ⟨label, _, labelled, gives⟩ := gives_bind.mp gives
  obtain ⟨declared, _, given, gives⟩ := gives_bind.mp gives
  obtain ⟨marks, _, marked, gives⟩ := gives_bind.mp gives
  obtain ⟨set, _, read, gives⟩ := gives_bind.mp gives
  rw [gives_spanFrom_bind] at gives
  obtain ⟨rfl, rfl⟩ := gives_pure.mp gives
  have kind := Between.passed rising (atName ▸ Token.Kind.isPart_name)
  have label := kind.append ((tracks_name.ifAt .name).between kind.rising labelled)
  have declared := label.append
    ((tracks_variableDefinitions (.refl levels)).between label.rising given)
  have marks := declared.append (between_directives declared.rising marked)
  exact marks.append (places_selectionSet levels marks.rising read)

theorem places_fragment {found : FragmentDefinition} (rising : stream.Rising)
    (gives : Gives (fragment levels) stream found rest) :
    Between stream rest (placesOfSet found.selectionSet) := by
  rw [fragment, gives_current_bind] at gives
  obtain ⟨⟨atName, _⟩, gives⟩ := gives_expectKeyword_bind.mp gives
  have keyword := Between.passed rising (atName ▸ Token.Kind.isPart_name)
  rw [gives_isAtKeyword_bind] at gives
  split at gives
  · exact absurd gives not_gives_expected
  · obtain ⟨atLabel, gives⟩ := gives_name_bind.mp gives
    have label := keyword.append (.passed keyword.rising (atLabel ▸ Token.Kind.isPart_name))
    obtain ⟨⟨atOn, _⟩, gives⟩ := gives_expectKeyword_bind.mp gives
    have on := label.append (.passed label.rising (atOn ▸ Token.Kind.isPart_name))
    obtain ⟨atCondition, gives⟩ := gives_name_bind.mp gives
    have condition := on.append (.passed on.rising (atCondition ▸ Token.Kind.isPart_name))
    obtain ⟨marks, _, marked, gives⟩ := gives_bind.mp gives
    obtain ⟨set, _, read, gives⟩ := gives_bind.mp gives
    rw [gives_spanFrom_bind] at gives
    obtain ⟨rfl, rfl⟩ := gives_pure.mp gives
    have marks := condition.append (between_directives condition.rising marked)
    exact marks.append (places_selectionSet levels marks.rising read)

theorem places_definition (levels : Nat) : Places placesOfDefinition (definition levels) := by
  intro stream rest found rising gives
  rw [definition, gives_current_bind] at gives
  split at gives
  · obtain ⟨query, written, rfl⟩ := gives_map.mp gives
    rw [shorthandQuery, gives_current_bind] at written
    obtain ⟨set, _, read, ends⟩ := gives_bind.mp written
    rw [gives_spanFrom_bind] at ends
    obtain ⟨rfl, rfl⟩ := gives_pure.mp ends
    exact places_selectionSet levels rising read
  · rename_i atName
    split at gives
    · obtain ⟨operation, written, rfl⟩ := gives_map.mp gives
      exact places_operation _ rising atName written
    · split at gives
      · obtain ⟨fragment, written, rfl⟩ := gives_map.mp gives
        exact places_fragment rising written
      · exact absurd gives not_gives_expected
  · exact absurd gives not_gives_expected

theorem places_definitions {limit bound : Nat} {found : List Definition}
    (rising : stream.Rising) (read : definitions limit bound stream = .ok (found, rest)) :
    Between stream rest (found.flatMap placesOfDefinition) := by
  induction bound generalizing stream found with
  | zero =>
      cases read
      exact .refl rising
  | succ bound induction =>
      rw [definitions] at read
      split at read
      · cases read
        exact .refl rising
      · split at read
        · cases read
        · rename_i first between given
          split at read
          · cases read
          · rename_i others last more
            cases read
            have here := places_definition limit rising given
            exact here.append (induction here.rising more)

end Parser

theorem Document.nodesApart_of_parse {limit : Nat} {text : List Char} {document : Document}
    (parsed : Parser.parseDocument limit text = .ok document) : document.NodesApart := by
  simp only [Parser.parseDocument] at parsed
  split at parsed
  · cases parsed
  · rename_i found rest read
    cases parsed
    have between := Parser.places_definitions (Parser.Stream.rising_ofText text) read
    have places : (Document.nodes ⟨found, ⟨(Parser.Stream.ofText text).current.span.start,
        max rest.current.span.stop (Parser.Stream.ofText text).current.span.start⟩⟩).map
          Field.place = found.flatMap Parser.placesOfDefinition := by
      simp only [Document.nodes, List.map_flatMap]
      rfl
    rw [NodesApart, places]
    exact between.sorted.imp Nat.ne_of_lt

end GraphQuery
