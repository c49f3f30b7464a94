import GraphQuery.Proofs.Syntax.Acceptance
import GraphQuery.Proofs.Syntax.Productions

namespace GraphQuery.Parser

/-! A higher nesting limit loses no document and changes none: it lets in exactly
those that are nested too deeply for the lower one. -/

/-! ## The same run with a higher limit -/

def raised : Comparison := ⟨True, True⟩

section Runs

variable {stream : Stream} {count : Nat}

theorem Stream.Passes.count_le (passes : stream.Passes count) (ended : stream.Ended) :
    count ≤ stream.following.length := by
  rcases ended with ⟨words, shows⟩
  rw [shows.length_following]
  apply Nat.le_of_not_lt
  intro beyond
  have left := shows.skip words.length
  rw [List.drop_length] at left
  exact (passes words.length beyond).1 left.atEnd

/-- A run fails for its limit, or it is the run with a higher limit as well. -/
theorem run_of_tracks {α : Type} {first second : Parser α} (tracks : raised.Tracks first second)
    (ended : stream.Ended) :
    (∃ found, first.run stream = .error ⟨.tooDeep, found⟩) ∨
      first.run stream = second.run stream := by
  rcases tracks ended ended (Comparison.alikeUpTo_refl stream.following.length stream) with
    ⟨count, outcome, ends, follows⟩
  rcases follows (ends.passes.count_le ended) with ⟨_, rfl⟩ | ⟨counterpart, endsSecond, matched⟩
  · exact .inl ⟨_, ends.runs⟩
  · right
    rw [ends.runs, endsSecond.runs]
    cases matched with
    | found same => rw [same trivial]
    | fault => rfl

def SyntaxError.underLimit (limit : Nat) (error : SyntaxError) : SyntaxError :=
  { error with limit := limit }

variable {less more : Nat}

theorem definitions_raised (atMost : less ≤ more) (bound : Nat) (ended : stream.Ended) :
    (∃ error, definitions less bound stream = .error error ∧ error.failure.fault = .tooDeep) ∨
      definitions more bound stream =
        (definitions less bound stream).mapError (SyntaxError.underLimit more) := by
  induction bound generalizing stream with
  | zero => exact .inr rfl
  | succ bound induction =>
      rw [definitions, definitions]
      split
      · exact .inr rfl
      have tracks : raised.Tracks (definition less) (definition more) :=
        Comparison.tracks_definition (.of_higher trivial atMost)
      rcases run_of_tracks tracks ended with ⟨found, failed⟩ | same
      · rw [failed]
        exact .inl ⟨_, rfl, rfl⟩
      rw [← same]
      rcases ended with ⟨words, shows⟩
      cases run : (definition less).run stream with
      | error failure => exact .inr rfl
      | ok given =>
          rcases given with ⟨first, rest⟩
          rcases definition_sound less shows run with ⟨taken, others, _, left, _⟩
          dsimp only
          rcases induction ⟨others, left⟩ with ⟨error, failed, deep⟩ | sameOthers
          · rw [failed]
            exact .inl ⟨error, rfl, deep⟩
          · rw [sameOthers]
            cases definitions less bound rest <;> exact .inr rfl

end Runs

section Documents

variable {less more : Nat} {text : List Char}

theorem parseDocument_raised (atMost : less ≤ more) (text : List Char) :
    (∃ error, parseDocument less text = .error error ∧ error.failure.fault = .tooDeep) ∨
      parseDocument more text =
        (parseDocument less text).mapError (SyntaxError.underLimit more) := by
  simp only [parseDocument]
  rcases definitions_raised atMost _ ⟨_, Stream.shows_ofText text⟩ with
    ⟨error, failed, deep⟩ | same
  · rw [failed]
    exact .inl ⟨error, rfl, deep⟩
  · rw [same]
    cases definitions less _ (Stream.ofText text) <;> exact .inr rfl

theorem parseDocument_of_lower {document : Document} (atMost : less ≤ more)
    (done : parseDocument less text = .ok document) : parseDocument more text = .ok document := by
  rcases parseDocument_raised atMost text with ⟨error, failed, _⟩ | same
  · rw [failed] at done
    cases done
  · rw [same, done]
    rfl

theorem parseDocument_unique {first second : Document}
    (done : parseDocument less text = .ok first) (also : parseDocument more text = .ok second) :
    first = second := by
  have raisedFirst := parseDocument_of_lower (Nat.le_max_left less more) done
  have raisedSecond := parseDocument_of_lower (Nat.le_max_right less more) also
  rw [raisedFirst] at raisedSecond
  exact Except.ok.inj raisedSecond

theorem nesting_le_of_parseDocument {document : Document}
    (done : parseDocument less text = .ok document) : document.nesting ≤ less := by
  rw [← document.nesting_bare]
  exact (parseDocument_fits done).shallow

theorem parseDocument_of_nesting_le {document : Document}
    (done : parseDocument more text = .ok document) (shallow : document.nesting ≤ less) :
    parseDocument less text = .ok document := by
  rcases parseDocument_fits done with ⟨written, readable, _⟩
  rw [← document.nesting_bare] at shallow
  rcases parseDocument_of_fits ⟨written, readable, shallow⟩ with ⟨other, given, _⟩
  rw [given, parseDocument_unique given done]

theorem tooDeep_of_parseDocument {document : Document} {error : SyntaxError}
    (done : parseDocument more text = .ok document)
    (failed : parseDocument less text = .error error) :
    error.failure.fault = .tooDeep ∧ less < document.nesting := by
  have deep : less < document.nesting := by
    apply Nat.lt_of_not_le
    intro shallow
    rw [parseDocument_of_nesting_le done shallow] at failed
    cases failed
  refine ⟨?_, deep⟩
  have higher : less ≤ more :=
    Nat.le_of_lt (Nat.lt_of_lt_of_le deep (nesting_le_of_parseDocument done))
  rcases parseDocument_raised higher text with ⟨found, failedAs, tooDeep⟩ | same
  · rw [failed] at failedAs
    cases failedAs
    exact tooDeep
  · rw [done, failed] at same
    cases same

end Documents

theorem deepest_le_iff {α : Type} {nesting : α → Nat} {limit : Nat} {items : List α} :
    deepest nesting items ≤ limit ↔ ∀ item ∈ items, nesting item ≤ limit := by
  induction items with
  | nil => simp
  | cons item rest induction =>
      rw [deepest_cons, Nat.max_le, induction, List.forall_mem_cons]

/-- The limit is exact. A document is given under it if and only if it is given under some
limit and is nested no deeper than this one; a text that is refused under this limit and
not under another is refused for its depth. Whatever the limits, it is the same document.
However many definitions there are, each has the whole limit to itself. -/
theorem nesting_limit_is_exact (limit : Nat) (text : List Char) :
    (∀ document, parseDocument limit text = .ok document ↔
      (∃ other, parseDocument other text = .ok document) ∧ document.nesting ≤ limit) ∧
    (∀ other document error, parseDocument other text = .ok document →
      parseDocument limit text = .error error →
      error.failure.fault = .tooDeep ∧ limit < document.nesting) ∧
    (∀ other first second, parseDocument limit text = .ok first →
      parseDocument other text = .ok second → first = second) ∧
    ∀ document : Document, document.nesting ≤ limit ↔
      ∀ definition ∈ document.definitions, definition.nesting ≤ limit := by
  refine ⟨fun document => ⟨?_, ?_⟩, ?_, ?_, fun document => deepest_le_iff⟩
  · intro done
    exact ⟨⟨limit, done⟩, nesting_le_of_parseDocument done⟩
  · rintro ⟨⟨other, done⟩, shallow⟩
    exact parseDocument_of_nesting_le done shallow
  · exact fun other document error => tooDeep_of_parseDocument
  · exact fun other first second => parseDocument_unique

def nestedLists : List Char := "\x7b a(b: [[c]]) \x7d".toList

theorem nested_lists_need_three_levels : ∃ document error,
    parseDocument 3 nestedLists = .ok document ∧ document.nesting = 3 ∧
      parseDocument 2 nestedLists = .error error ∧ error.failure.fault = .tooDeep := by
  have measured : (parseDocument 3 nestedLists).toOption.map Document.nesting = some 3 := by cbv
  rcases Option.map_eq_some_iff.mp measured with ⟨document, found, nesting⟩
  have done := Except.eq_ok_of_toOption found
  cases failed : parseDocument 2 nestedLists with
  | ok other =>
      have shallow := (((nesting_limit_is_exact 2 nestedLists).1 other).mp failed).2
      rw [(nesting_limit_is_exact 2 nestedLists).2.2.1 3 other document failed done] at shallow
      omega
  | error error =>
      have deep := (nesting_limit_is_exact 2 nestedLists).2.1 3 document error done failed
      exact ⟨document, error, done, nesting, rfl, deep.1⟩

end GraphQuery.Parser
