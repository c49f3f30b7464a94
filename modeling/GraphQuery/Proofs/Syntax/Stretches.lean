import GraphQuery.Proofs.Syntax.Composition

namespace GraphQuery.Token

/-! The stretch of a text that some of its words take up, and what becomes of the other words
when another text is put there. -/

/-! ## Words within a text -/

/-- The text from the first to the last of some words, after the text before it. -/
structure Stretch (words : List Token) (front original : List Char) : Prop where
  starts : words.head?.map (·.span.start) = some (byteCount front)
  stops : words.getLast?.map (·.span.stop) = some (byteCount (front ++ original))

theorem eq_of_byteCount {front rest other more : List Char}
    (whole : front ++ rest = other ++ more) (same : byteCount front = byteCount other) :
    front = other := by
  have nothing {between : List Char} (count : byteCount between = 0) : between = [] := by
    cases between with
    | nil => rfl
    | cons first between => exact absurd (byteCount_pos (List.cons_ne_nil first between)) (by omega)
  rcases List.append_eq_append_iff.mp whole with ⟨between, rfl, _⟩ | ⟨between, rfl, _⟩ <;>
    rw [byteCount_append] at same <;>
    rw [nothing (by omega : byteCount between = 0), List.append_nil]

/-- The places of the words determine the stretch. -/
theorem Stretch.unique {words : List Token} {front original back other another after : List Char}
    (stretch : Stretch words front original) (also : Stretch words other another)
    (same : front ++ (original ++ back) = other ++ (another ++ after)) :
    front = other ∧ original = another ∧ back = after := by
  have starts := stretch.starts.symm.trans also.starts
  have stops := stretch.stops.symm.trans also.stops
  obtain rfl := eq_of_byteCount same (Option.some.inj starts)
  have rest := List.append_cancel_left same
  have count := Option.some.inj stops
  rw [byteCount_append, byteCount_append] at count
  obtain rfl := eq_of_byteCount rest (Nat.add_left_cancel count)
  exact ⟨rfl, rfl, List.append_cancel_left rest⟩

theorem exists_first {before text : List Char} {token : Token} {others : List Token}
    (split : tokensFrom (Cursor.after before text) = token :: others)
    (inside : token.kind ≠ .endOfInput) :
    ∃ gap first word rest, text = gap ++ first :: (word ++ rest) ∧
      Ignorable (first :: (word ++ rest)) gap ∧ first ∉ '#' :: blanks ∧
      token = spanning token.kind (before ++ gap) (first :: word) ∧
      scan first (word ++ rest) = (token.kind, word.length) ∧
      tokensFrom (Cursor.after (before ++ gap ++ first :: word) rest) = others := by
  rcases exists_gap text with ⟨gap, rest, rfl, _, ignorable, begins⟩
  cases rest with
  | nil =>
      rw [List.append_nil, tokensFrom_of_ignorable _ ignorable] at split
      rw [← (List.cons.inj split).1] at inside
      exact absurd rfl inside
  | cons first rest =>
      rcases exists_scanned first rest with ⟨kind, word, rest, rfl, scanned⟩
      rw [tokensFrom_of_word _ ignorable begins scanned] at split
      obtain ⟨rfl, others⟩ := List.cons.inj split
      refine ⟨gap, first, word, rest, rfl, ignorable, ?_, rfl, scanned, others⟩
      rw [List.mem_cons, not_or]
      exact (begins first rfl).symm

theorem exists_last {before text : List Char} {words others : List Token} {last : Token}
    (split : tokensFrom (Cursor.after before text) = words ++ last :: others)
    (valid : ∀ word ∈ words, word.kind ≠ .invalid) (inside : last.kind ≠ .endOfInput) :
    ∃ taken back, text = taken ++ back ∧ last.span.stop = byteCount (before ++ taken) ∧
      tokensFrom (Cursor.after (before ++ taken) back) = others ∧
      ∃ first word, scan first (word ++ back) = (last.kind, word.length) := by
  rcases exists_used split nofun valid with ⟨used, tail, rfl, left, _⟩
  rcases exists_first left inside with
    ⟨gap, first, word, back, rfl, _, _, covered, scanned, others⟩
  refine ⟨used ++ (gap ++ first :: word), back, by simp, ?_, ?_, first, word, scanned⟩
  · rw [covered]
    simp [spanning]
  · rw [← others]
    simp

/-! ## Another text in the place of words -/

theorem tokensFrom_gap (before : List Char) {gap rest : List Char} {first : Char}
    (ignorable : Ignorable (first :: rest) gap) (begins : first ∉ '#' :: blanks) :
    tokensFrom (Cursor.after before (gap ++ first :: rest)) =
      tokensFrom (Cursor.after (before ++ gap) (first :: rest)) := by
  rcases exists_scanned first rest with ⟨kind, word, rest, rfl, scanned⟩
  have word := beginsWord_cons begins (word ++ rest)
  have alone := tokensFrom_of_word (before ++ gap) .nil word scanned
  rw [List.nil_append, List.append_nil] at alone
  rw [alone, tokensFrom_of_word before ignorable word scanned]

theorem lexemes_append {used other : List Char} {before : List Token}
    (split : tokensFrom (Cursor.after [] (used ++ other)) =
      before ++ tokensFrom (Cursor.after used other)) :
    lexemes (used ++ other) = before.map lexeme ++ lexemes other := by
  rw [← lexemes_after [] (used ++ other), split,
    List.dropLast_append_of_ne_nil (tokensFrom_ne_nil used other), List.map_append, lexemes_after]

theorem lexemes_marked {gap letters between rest following : List Char} {kind : Kind}
    {sign start first : Char} (isPunctuator : kind.isPunctuator = true)
    (ignorable : Ignorable (sign :: rest) gap) (spelled : Spelled kind (sign :: letters))
    (ignorableBetween : Ignorable (start :: following) between) (begins : start ∉ '#' :: blanks)
    (beginsFirst : first ∉ '#' :: blanks) (printed : List Char) :
    lexemes (gap ++ (sign :: letters ++ (between ++ first :: printed))) =
      .mark kind :: lexemes (first :: printed) := by
  have spaced := ignorableBetween.before nofun (beginsWord_cons begins _) (first :: printed)
  rw [lexemes_gap_mark isPunctuator (ignorable.congr rfl) spelled, lexemes_gap spaced beginsFirst]

theorem exists_front {text : List Char} {before others : List Token} {mark word : Token}
    (split : tokenize text = before ++ mark :: word :: others)
    (isMark : mark.kind.isPunctuator = true) (valid : ∀ token ∈ before, token.kind ≠ .invalid)
    (inside : word.kind ≠ .endOfInput) :
    ∃ front rest, text = front ++ rest ∧ word.span.start = byteCount front ∧
      tokensFrom (Cursor.after front rest) = word :: others ∧
      ∀ first printed, first ∉ '#' :: blanks → lexemes (front ++ first :: printed) =
        before.map lexeme ++ mark.lexeme :: lexemes (first :: printed) := by
  have whole : tokensFrom (Cursor.after [] text) = before ++ mark :: word :: others := split
  have marked : mark.kind ≠ .endOfInput ∧ mark.kind ≠ .invalid := by
    constructor <;> intro same <;> rw [same] at isMark <;> cases isMark
  rcases exists_used whole nofun valid with ⟨used, tail, rfl, atMark, exchange⟩
  rcases exists_first atMark marked.1 with
    ⟨gap, sign, letters, rest, rfl, ignorable, begins, covered, scanned, atWord⟩
  rcases exists_first atWord inside with
    ⟨between, start, more, rest, rfl, ignorableBetween, beginsWord, coveredWord, _, _⟩
  have spelled := (spelled_of_scan_append scanned marked.2).1
  refine ⟨used ++ (gap ++ (sign :: letters ++ between)), start :: (more ++ rest), by simp, ?_, ?_,
    ?_⟩
  · rw [coveredWord]
    simp [spanning]
  · rw [tokensFrom_gap _ ignorableBetween beginsWord] at atWord
    rw [← atWord]
    simp
  · intro first printed beginsPrinted
    have alike : Replaces (gap ++ (sign :: letters ++ (between ++ first :: printed)))
        (gap ++ sign :: (letters ++ (between ++ start :: (more ++ rest)))) := by
      cases gap <;> exact fun next found => .inl found
    have exchanged := lexemes_append (exchange _ alike)
    rw [lexemes_marked isMark ignorable spelled ignorableBetween beginsWord beginsPrinted,
      ← (lexeme_eq_mark isMark).mpr rfl] at exchanged
    rw [← exchanged]
    simp

theorem exists_stretch {text : List Char} {before words after : List Token} {mark : Token}
    (split : tokenize text = before ++ mark :: (words ++ after))
    (isMark : mark.kind.isPunctuator = true)
    (valid : ∀ token ∈ tokenize text, token.kind ≠ .invalid)
    (inside : ∀ token ∈ words, token.kind ≠ .endOfInput) (occupied : words ≠ []) :
    ∃ front original back, text = front ++ (original ++ back) ∧ Stretch words front original ∧
      tokensFrom (Cursor.after (front ++ original) back) = after ∧
      (∀ last ∈ words.getLast?, ∃ first word,
        scan first (word ++ back) = (last.kind, word.length)) ∧
      ∀ first printed, first ∉ '#' :: blanks →
        lexemes (front ++ first :: printed) =
          before.map lexeme ++ mark.lexeme :: lexemes (first :: printed) := by
  rw [split] at valid
  simp only [List.forall_mem_append, List.forall_mem_cons] at valid
  obtain ⟨validBefore, _, validWords, _⟩ := valid
  obtain ⟨word, others, same⟩ := List.exists_cons_of_ne_nil occupied
  have atWord : tokenize text = before ++ mark :: word :: (others ++ after) := by
    rw [split, same, List.cons_append]
  rcases exists_front atWord isMark validBefore (inside word (same ▸ List.mem_cons_self)) with
    ⟨front, rest, rfl, starts, left, exchange⟩
  rw [← List.cons_append, ← same] at left
  obtain ⟨earlier, last, rfl⟩ : ∃ earlier last, words = earlier ++ [last] :=
    ⟨_, _, (List.dropLast_concat_getLast occupied).symm⟩
  rw [List.append_assoc] at left
  rw [List.forall_mem_append] at validWords inside
  rcases exists_last left validWords.1 (inside.2 last (by simp)) with
    ⟨original, back, rfl, stops, others, scanned⟩
  refine ⟨front, original, back, rfl, ⟨?_, ?_⟩, others, ?_, exchange⟩
  · rw [same, List.head?_cons, Option.map_some, starts]
  · rw [List.getLast?_concat, Option.map_some, stops]
  · rw [List.getLast?_concat]
    rintro found ⟨⟩
    exact scanned

end GraphQuery.Token
