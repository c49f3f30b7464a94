import GraphQuery.Proofs.Syntax.Grammar

namespace GraphQuery.Parser

/-! How parsers run: what a parser gives, and what is left of the stream. -/

/-- From this stream the parser gives a result and leaves the rest. -/
def Gives {α : Type} (parser : Parser α) (stream : Stream) (found : α) (rest : Stream) : Prop :=
  parser.run stream = .ok (found, rest)

section Steps

variable {α β : Type} {stream rest : Stream}

theorem gives_bind {parser : Parser α} {next : α → Parser β} {found : β} :
    Gives (parser >>= next) stream found rest ↔
      ∃ value between, Gives parser stream value between ∧
        Gives (next value) between found rest := by
  simp only [Gives, StateT.run_bind]
  cases parser.run stream with
  | error failure => simp [bind, Except.bind]
  | ok given =>
      rcases given with ⟨value, between⟩
      constructor
      · exact fun gives => ⟨value, between, rfl, gives⟩
      · rintro ⟨_, _, same, gives⟩
        cases same
        exact gives

theorem Gives.bind {parser : Parser α} {next : α → Parser β} {value : α} {between : Stream}
    {found : β} (gives : Gives parser stream value between)
    (more : Gives (next value) between found rest) :
    Gives (parser >>= next) stream found rest :=
  gives_bind.mpr ⟨value, between, gives, more⟩

theorem gives_pure {value found : α} :
    Gives (pure value) stream found rest ↔ found = value ∧ rest = stream := by
  have run : (pure value : Parser α).run stream = .ok (value, stream) := rfl
  rw [Gives, run]
  constructor
  · intro same
    cases same
    exact ⟨rfl, rfl⟩
  · rintro ⟨rfl, rfl⟩
    rfl

theorem gives_return (value : α) : Gives (pure value) stream value stream :=
  gives_pure.mpr ⟨rfl, rfl⟩

theorem gives_map {parser : Parser α} {change : α → β} {found : β} :
    Gives (change <$> parser) stream found rest ↔
      ∃ value, Gives parser stream value rest ∧ found = change value := by
  rw [map_eq_pure_bind, gives_bind]
  simp only [gives_pure]
  constructor
  · rintro ⟨value, between, gives, rfl, rfl⟩
    exact ⟨value, gives, rfl⟩
  · rintro ⟨value, gives, rfl⟩
    exact ⟨value, rest, gives, rfl, rfl⟩

theorem not_gives_fail {fault : SyntaxFault} {found : α} :
    ¬ Gives (fail fault) stream found rest := by
  have run : (fail fault : Parser α).run stream = .error ⟨fault, stream.current⟩ := rfl
  rw [Gives, run]
  exact nofun

theorem not_gives_expected {wanted : Expectation} {found : α} :
    ¬ Gives (expected wanted) stream found rest := not_gives_fail

/-! ## Single tokens

What a parser gives that looks at one token and then goes on. -/

variable {next : Token → Parser α} {found : α}

theorem gives_current_bind :
    Gives (current >>= next) stream found rest ↔
      Gives (next stream.current) stream found rest := Iff.rfl

theorem gives_get_bind {next : Stream → Parser α} :
    Gives (get >>= next) stream found rest ↔ Gives (next stream) stream found rest := Iff.rfl

theorem gives_advance_bind {next : Unit → Parser α} :
    Gives (advance >>= next) stream found rest ↔
      Gives (next ()) stream.passed found rest := Iff.rfl

theorem gives_isAt_bind {kind : Token.Kind} {next : Bool → Parser α} :
    Gives (isAt kind >>= next) stream found rest ↔
      Gives (next (stream.current.kind == kind)) stream found rest := Iff.rfl

theorem gives_isAtKeyword_bind {word : String} {next : Bool → Parser α} :
    Gives (isAtKeyword word >>= next) stream found rest ↔
      Gives (next (stream.current.kind == .name && stream.current.text == word)) stream found
        rest := Iff.rfl

theorem gives_spanFrom_bind {first : Token} {next : Span → Parser α} :
    Gives (spanFrom first >>= next) stream found rest ↔
      Gives (next ⟨first.span.start, max stream.current.span.stop first.span.start⟩) stream
        found rest := Iff.rfl

theorem gives_accept_bind {kind : Token.Kind} {next : Bool → Parser α} :
    Gives (accept kind >>= next) stream found rest ↔
      stream.current.kind = kind ∧ Gives (next true) stream.passed found rest ∨
        stream.current.kind ≠ kind ∧ Gives (next false) stream found rest := by
  rw [accept, bind_assoc, gives_isAt_bind]
  by_cases here : stream.current.kind = kind
  · simp only [here, beq_self_eq_true, if_true, bind_assoc, pure_bind, gives_advance_bind,
      true_and, ne_eq, not_true_eq_false, false_and, or_false]
  · simp only [here, beq_eq_false_iff_ne.mpr here, Bool.false_eq_true, if_false, pure_bind,
      false_and, false_or, ne_eq, not_false_eq_true, true_and]

theorem gives_expect_bind {kind : Token.Kind} {next : Unit → Parser α} :
    Gives (expect kind >>= next) stream found rest ↔
      stream.current.kind = kind ∧ Gives (next ()) stream.passed found rest := by
  rw [expect, bind_assoc, gives_accept_bind]
  simp [gives_bind, not_gives_expected]

theorem gives_expectKeyword_bind {word : String} {next : Unit → Parser α} :
    Gives (expectKeyword word >>= next) stream found rest ↔
      (stream.current.kind = .name ∧ stream.current.text = word) ∧
        Gives (next ()) stream.passed found rest := by
  rw [expectKeyword, bind_assoc, gives_isAtKeyword_bind]
  by_cases here : stream.current.kind = .name ∧ stream.current.text = word
  · simp [here, gives_advance_bind]
  · have elsewhere : (stream.current.kind == .name && stream.current.text == word) = false := by
      simpa using here
    simp [here, elsewhere, gives_bind, not_gives_expected]

theorem gives_name_bind {next : Name → Parser α} :
    Gives (name >>= next) stream found rest ↔
      stream.current.kind = .name ∧
        Gives (next ⟨stream.current.text, stream.current.span, stream.current.location⟩)
          stream.passed found rest := by
  rw [name, bind_assoc, gives_current_bind]
  by_cases here : stream.current.kind = .name
  · simp [here, gives_advance_bind]
  · simp [here, gives_bind, not_gives_expected]

theorem gives_name {found : Name} :
    Gives name stream found rest ↔
      stream.current.kind = .name ∧
        found = ⟨stream.current.text, stream.current.span, stream.current.location⟩ ∧
          rest = stream.passed := by
  rw [← bind_pure name, gives_name_bind, gives_pure]

theorem gives_ifAt {kind : Token.Kind} {parser : Parser α} {found : Option α} :
    Gives (ifAt kind parser) stream found rest ↔
      (stream.current.kind = kind ∧ ∃ value, Gives parser stream value rest ∧ found = some value) ∨
        (stream.current.kind ≠ kind ∧ found = none ∧ rest = stream) := by
  rw [ifAt, gives_isAt_bind]
  by_cases here : stream.current.kind = kind
  · simp [here, gives_map]
  · simp [here, gives_pure]

theorem gives_ifAfter {kind : Token.Kind} {parser : Parser α} {found : Option α} :
    Gives (ifAfter kind parser) stream found rest ↔
      (stream.current.kind = kind ∧
        ∃ value, Gives parser stream.passed value rest ∧ found = some value) ∨
          (stream.current.kind ≠ kind ∧ found = none ∧ rest = stream) := by
  rw [ifAfter, gives_accept_bind]
  by_cases here : stream.current.kind = kind
  · simp [here, gives_map]
  · simp [here, gives_pure]

end Steps

end GraphQuery.Parser
