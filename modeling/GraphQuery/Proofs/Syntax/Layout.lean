import GraphQuery.Proofs.Syntax.Lexemes

namespace GraphQuery.Token

/-! Tokens divide a text: each of them covers a word, and what lies outside all
words is text that counts for nothing. -/

/-! ## Bytes and locations -/

def byteCount (text : List Char) : Nat := (String.ofList text).utf8ByteSize

@[simp] theorem byteCount_nil : byteCount [] = 0 := rfl

@[simp] theorem byteCount_append (first second : List Char) :
    byteCount (first ++ second) = byteCount first + byteCount second := by
  simp [byteCount, String.ofList_append]

@[simp] theorem byteCount_singleton (character : Char) :
    byteCount [character] = character.utf8Size := by
  simp [byteCount]

theorem byteCount_cons (character : Char) (rest : List Char) :
    byteCount (character :: rest) = character.utf8Size + byteCount rest := by
  rw [← List.singleton_append, byteCount_append, byteCount_singleton]

theorem byteCount_pos {text : List Char} (occupied : text ≠ []) : 0 < byteCount text := by
  cases text with
  | nil => exact absurd rfl occupied
  | cons character rest =>
      have positive := character.utf8Size_pos
      rw [byteCount_cons]
      omega

def endOf (text : List Char) : Location := text.foldl Location.after Location.start

theorem locateFrom_byteCount (location : Location) (lineBytes : Nat) (text rest : List Char) :
    Location.locateFrom location lineBytes (text ++ rest) (byteCount text) =
      text.foldl Location.after location := by
  induction text generalizing location lineBytes with
  | nil =>
      rw [byteCount_nil, Location.locateFrom]
      rfl
  | cons character text induction =>
      have positive := character.utf8Size_pos
      obtain ⟨less, enough⟩ := Nat.exists_eq_add_one.mpr
        (Nat.lt_of_lt_of_le positive (Nat.le_add_right _ (byteCount text)))
      have inside : ¬ less + 1 < character.utf8Size := by omega
      have left : less + 1 - character.utf8Size = byteCount text := by omega
      rw [byteCount_cons, enough, List.cons_append, Location.locateFrom, if_neg inside, left,
        induction]
      rfl

theorem ofOffset_byteCount (text rest : List Char) :
    Location.ofOffset (text ++ rest) (byteCount text) = endOf text :=
  locateFrom_byteCount _ _ _ _

/-! ## Text that counts for nothing -/

def blanks : List Char := [' ', '\t', '\n', '\x0d', ',', '\ufeff']

theorem isIgnored_iff {character : Char} : isIgnored character = true ↔ character ∈ blanks := by
  simp [isIgnored, byteOrderMark, blanks, or_assoc]

/-- Text that counts for nothing where `following` comes after it: blank characters, and
comments, each of which stops before the next line feed or at the end. -/
inductive Ignorable (following : List Char) : List Char → Prop
  | nil : Ignorable following []
  | blank {character : Char} {rest : List Char} (isBlank : character ∈ blanks)
      (more : Ignorable following rest) : Ignorable following (character :: rest)
  | comment {body rest : List Char} (oneLine : '\n' ∉ body)
      (stops : ∀ next ∈ (rest ++ following).head?, next = '\n')
      (more : Ignorable following rest) : Ignorable following ('#' :: (body ++ rest))

def BeginsWord (text : List Char) : Prop :=
  ∀ first ∈ text.head?, first ∉ blanks ∧ first ≠ '#'

theorem ignoredLength_false_cons {character : Char} {rest : List Char}
    (word : character ∉ blanks ∧ character ≠ '#') :
    ignoredLength false (character :: rest) = 0 := by
  have notBlank : isIgnored character = false := by
    rw [← Bool.not_eq_true, isIgnored_iff]
    exact word.1
  simp [ignoredLength, word.2, notBlank]

theorem ignoredLength_false_blank {character : Char} (isBlank : character ∈ blanks)
    (rest : List Char) :
    ignoredLength false (character :: rest) = ignoredLength false rest + 1 := by
  have notMark : character ≠ '#' := by
    rintro rfl
    exact absurd isBlank (by decide)
  simp [ignoredLength, notMark, isIgnored_iff.mpr isBlank]

theorem ignoredLength_true {body rest : List Char} (oneLine : '\n' ∉ body)
    (stops : ∀ next ∈ rest.head?, next = '\n') :
    ignoredLength true (body ++ rest) = body.length + ignoredLength false rest := by
  induction body with
  | nil =>
      cases rest with
      | nil => rfl
      | cons next rest =>
          have lineFeed : next = '\n' := stops next rfl
          rw [lineFeed, ignoredLength_false_blank (by decide)]
          simp [ignoredLength]
  | cons character body induction =>
      rw [List.mem_cons, not_or] at oneLine
      have same : (character != '\n') = true := by simpa using Ne.symm oneLine.1
      rw [List.cons_append, ignoredLength, same, induction oneLine.2, List.length_cons]
      omega

theorem exists_comment (text : List Char) : ∃ body rest, text = body ++ rest ∧ '\n' ∉ body ∧
    ∀ next ∈ rest.head?, next = '\n' := by
  induction text with
  | nil => exact ⟨[], [], rfl, nofun, nofun⟩
  | cons character text induction =>
      by_cases lineFeed : character = '\n'
      · refine ⟨[], character :: text, rfl, nofun, ?_⟩
        rintro next ⟨⟩
        exact lineFeed
      · rcases induction with ⟨body, rest, rfl, oneLine, stops⟩
        exact ⟨character :: body, rest, rfl, by simp [Ne.symm lineFeed, oneLine], stops⟩

theorem exists_gap (text : List Char) : ∃ gap rest, text = gap ++ rest ∧
    ignoredLength false text = gap.length ∧ Ignorable rest gap ∧ BeginsWord rest := by
  induction size : text.length using Nat.strongRecOn generalizing text with
  | ind size induction =>
      subst size
      cases text with
      | nil => exact ⟨[], [], rfl, rfl, .nil, nofun⟩
      | cons character text =>
          by_cases isBlank : character ∈ blanks
          · rcases induction text.length (by simp) text rfl with
              ⟨gap, rest, rfl, length, ignorable, begins⟩
            refine ⟨character :: gap, rest, rfl, ?_, .blank isBlank ignorable, begins⟩
            rw [ignoredLength_false_blank isBlank, length, List.length_cons]
          by_cases mark : character = '#'
          · subst mark
            rcases exists_comment text with ⟨body, others, rfl, oneLine, stops⟩
            have shorter : others.length < ('#' :: (body ++ others)).length := by
              rw [List.length_cons, List.length_append]
              omega
            rcases induction others.length shorter others rfl with
              ⟨gap, rest, rfl, length, ignorable, begins⟩
            refine ⟨'#' :: (body ++ gap), rest, by simp, ?_, .comment oneLine stops ignorable,
              begins⟩
            have inside : ignoredLength false ('#' :: (body ++ (gap ++ rest))) =
                ignoredLength true (body ++ (gap ++ rest)) + 1 := by
              simp [ignoredLength]
            rw [inside, ignoredLength_true oneLine stops, length]
            simp
          · have word : character ∉ blanks ∧ character ≠ '#' := ⟨isBlank, mark⟩
            refine ⟨[], character :: text, rfl, ignoredLength_false_cons word, .nil, ?_⟩
            rintro first ⟨⟩
            exact word

theorem ignoredLength_of_ignorable {gap rest : List Char} (ignorable : Ignorable rest gap)
    (begins : BeginsWord rest) : ignoredLength false (gap ++ rest) = gap.length := by
  induction ignorable with
  | nil =>
      cases rest with
      | nil => rfl
      | cons first rest => exact ignoredLength_false_cons (begins first rfl)
  | blank isBlank more induction =>
      rw [List.cons_append, ignoredLength_false_blank isBlank, induction, List.length_cons]
  | @comment body others oneLine stops more induction =>
      have inside : ignoredLength false ('#' :: (body ++ others) ++ rest) =
          ignoredLength true (body ++ (others ++ rest)) + 1 := by
        simp [ignoredLength]
      rw [inside, ignoredLength_true oneLine stops, induction]
      simp

/-! ## Words stay within their text -/

def Bounded (scanner : List Char → Kind × Nat) : Prop := ∀ text, (scanner text).2 ≤ text.length

theorem bounded_numberEnd (kind : Kind) : Bounded (numberEnd kind) := by
  intro text
  unfold numberEnd
  split
  · split <;> simp
  · simp

theorem runLength_le (within : Char → Bool) (text : List Char) :
    runLength within text ≤ text.length := (List.takeWhile_sublist within).length_le

theorem Bounded.digitsThen {next : List Char → Kind × Nat} (bounded : Bounded next) :
    Bounded (digitsThen next) := by
  intro text
  have run := runLength_le Char.isDigit text
  have others := bounded (text.drop (runLength Char.isDigit text))
  rw [List.length_drop] at others
  simp only [Token.digitsThen]
  split
  · simp
  · simp only [after]
    omega

theorem Bounded.after {scanner : List Char → Kind × Nat} (bounded : Bounded scanner)
    (character : Char) (text : List Char) :
    (Token.after 1 (scanner text)).2 ≤ (character :: text).length := by
  have others := bounded text
  simp only [Token.after, List.length_cons]
  omega

theorem Bounded.signThen {next : List Char → Kind × Nat} (bounded : Bounded next) :
    Bounded (signThen next) := by
  intro text
  unfold Token.signThen
  split
  · exact bounded.after _ _
  · exact bounded.after _ _
  · exact bounded _

theorem bounded_scanExponent (kind : Kind) : Bounded (scanExponent kind) := by
  intro text
  unfold scanExponent
  split
  · split
    · exact (bounded_numberEnd _).digitsThen.signThen.after _ _
    · exact bounded_numberEnd kind _
  · exact bounded_numberEnd kind _

theorem bounded_scanFraction : Bounded scanFraction := by
  intro text
  unfold scanFraction
  split
  · exact (bounded_scanExponent _).digitsThen.after _ _
  · exact bounded_scanExponent _ _

theorem bounded_scanUnsigned : Bounded scanUnsigned := by
  intro text
  unfold scanUnsigned
  split
  · split
    · split
      · simp
      · exact bounded_scanFraction.after _ _
    · exact bounded_scanFraction.after _ _
  · exact bounded_scanFraction.digitsThen _

theorem bounded_scanString : Bounded scanString := by
  intro text
  fun_induction scanString text with
  | case5 character rest induction =>
      simp only [after, List.length_cons]
      omega
  | case6 character rest _ _ _ _ induction =>
      simp only [after, List.length_cons]
      omega
  | _ => simp

theorem bounded_scanBlockString : Bounded scanBlockString := by
  intro text
  fun_induction scanBlockString text with
  | case3 rest induction =>
      simp only [after, List.length_cons]
      omega
  | case4 character rest _ _ induction =>
      simp only [after, List.length_cons]
      omega
  | _ => simp

theorem scan_snd_le (first : Char) (rest : List Char) : (scan first rest).2 ≤ rest.length := by
  unfold scan
  split
  · simp
  split
  · split <;> simp
  split
  · split
    next body =>
      have others := bounded_scanBlockString body
      simp only [after, List.length_cons]
      omega
    · exact bounded_scanString _
  split
  · exact bounded_scanUnsigned _
  split
  · have whole := bounded_scanUnsigned (first :: rest)
    rw [List.length_cons] at whole
    simp only
    omega
  split
  · exact runLength_le _ _
  · simp

theorem exists_scanned (first : Char) (text : List Char) : ∃ kind word rest,
    text = word ++ rest ∧ scan first (word ++ rest) = (kind, word.length) := by
  have inside := scan_snd_le first text
  refine ⟨(scan first text).1, text.take (scan first text).2, text.drop (scan first text).2,
    (List.take_append_drop _ _).symm, ?_⟩
  rw [List.take_append_drop, List.length_take, Nat.min_eq_left inside]

/-! ## Words and gaps in turn -/

/-- A place in a text, between what stands before it and what is left. -/
def Cursor.after (before rest : List Char) : Cursor := ⟨byteCount before, endOf before, rest⟩

theorem Cursor.advance_after (before taken rest : List Char) :
    (Cursor.after before (taken ++ rest)).advance taken.length =
      Cursor.after (before ++ taken) rest := by
  induction taken generalizing before with
  | nil => simp [Cursor.advance]
  | cons character taken induction =>
      have one : (Cursor.after before (character :: (taken ++ rest))).advance (taken.length + 1) =
          (Cursor.after (before ++ [character]) (taken ++ rest)).advance taken.length := by
        simp [Cursor.after, Cursor.advance, endOf, List.foldl_append]
      rw [List.cons_append, List.length_cons, one, induction]
      simp

theorem Cursor.skipIgnored_after (before : List Char) {gap rest : List Char}
    (ignorable : Ignorable rest gap) (begins : BeginsWord rest) :
    (Cursor.after before (gap ++ rest)).skipIgnored = Cursor.after (before ++ gap) rest := by
  have length := ignoredLength_of_ignorable ignorable begins
  rw [Cursor.skipIgnored, ← Cursor.advance_after]
  exact congrArg (fun count => Cursor.advance count _) length

def spanning (kind : Kind) (before word : List Char) : Token :=
  ⟨kind, String.ofList word, ⟨byteCount before, byteCount (before ++ word)⟩, endOf before⟩

/-- The tokens of a text that comes after another one. -/
inductive Divides : (before text : List Char) → List Token → Prop
  | done {before gap : List Char} (ignorable : Ignorable [] gap) :
      Divides before gap [spanning .endOfInput (before ++ gap) []]
  | word {before gap word rest : List Char} {kind : Kind} {tokens : List Token}
      (ignorable : Ignorable (word ++ rest) gap) (begins : BeginsWord (word ++ rest))
      (occupied : word ≠ []) (inside : kind ≠ .endOfInput)
      (more : Divides (before ++ gap ++ word) rest tokens) :
      Divides before (gap ++ (word ++ rest)) (spanning kind (before ++ gap) word :: tokens)

theorem tokensFrom_of_ignorable (before : List Char) {gap : List Char}
    (ignorable : Ignorable [] gap) :
    tokensFrom (Cursor.after before gap) = [spanning .endOfInput (before ++ gap) []] := by
  have skipped := Cursor.skipIgnored_after before ignorable nofun
  rw [List.append_nil] at skipped
  rw [tokensFrom]
  split
  next =>
    rw [skipped]
    simp [Cursor.after, spanning, Span.empty]
  next first rest found =>
    rw [skipped] at found
    cases found

/-- Elsewhere the word that comes first is covered, and the tokens after it follow. -/
theorem tokensFrom_of_word (before : List Char) {gap word rest : List Char} {first : Char}
    {kind : Kind} (ignorable : Ignorable (first :: (word ++ rest)) gap)
    (begins : BeginsWord (first :: (word ++ rest)))
    (scanned : scan first (word ++ rest) = (kind, word.length)) :
    tokensFrom (Cursor.after before (gap ++ first :: (word ++ rest))) =
      spanning kind (before ++ gap) (first :: word) ::
        tokensFrom (Cursor.after (before ++ gap ++ first :: word) rest) := by
  have skipped := Cursor.skipIgnored_after before ignorable begins
  have stop := Cursor.advance_after (before ++ gap) (first :: word) rest
  rw [List.cons_append, List.length_cons] at stop
  rw [tokensFrom]
  split
  next found =>
    rw [skipped] at found
    cases found
  next other others found =>
    rw [skipped] at found
    cases found
    rw [scanned]
    simp only [skipped, stop]
    simp [spanning, Cursor.after]

theorem divides_tokensFrom (before text : List Char) :
    Divides before text (tokensFrom (Cursor.after before text)) := by
  induction size : text.length using Nat.strongRecOn generalizing before text with
  | ind size induction =>
      subst size
      rcases exists_gap text with ⟨gap, rest, rfl, length, ignorable, begins⟩
      cases rest with
      | nil =>
          rw [List.append_nil, tokensFrom_of_ignorable before ignorable]
          exact .done ignorable
      | cons first rest =>
          rcases exists_scanned first rest with ⟨kind, word, rest, rfl, scanned⟩
          have inside := scan_fst_ne first (word ++ rest)
          have occupied : first :: word ≠ [] := nofun
          rw [scanned] at inside
          rw [tokensFrom_of_word before ignorable begins scanned]
          refine .word ignorable begins occupied inside (induction _ ?_ _ _ rfl)
          simp
          omega

theorem divides_tokenize (text : List Char) : Divides [] text (tokenize text) :=
  divides_tokensFrom [] text

/-! ## What divided texts have in common -/

namespace Divides

variable {before text : List Char} {tokens : List Token}

theorem ends (divides : Divides before text tokens) : ∃ words,
    tokens = words ++ [spanning .endOfInput (before ++ text) []] ∧
      ∀ word ∈ words, word.kind ≠ .endOfInput := by
  induction divides with
  | done => exact ⟨[], rfl, nofun⟩
  | @word before gap word rest kind tokens ignorable begins occupied inside more induction =>
      rcases induction with ⟨words, rfl, others⟩
      refine ⟨spanning kind (before ++ gap) word :: words, by simp, ?_⟩
      exact List.forall_mem_cons.mpr ⟨inside, others⟩

theorem covers (divides : Divides before text tokens) : ∀ token ∈ tokens, ∃ front word back,
    before ++ text = front ++ (word ++ back) ∧ token = spanning token.kind front word ∧
      (token.kind ≠ .endOfInput → word ≠ [] ∧ BeginsWord word) := by
  induction divides with
  | @done before gap _ =>
      intro token member
      rw [List.mem_singleton] at member
      refine ⟨before ++ gap, [], [], by simp, member ▸ rfl, fun inside => ?_⟩
      simp [member, spanning] at inside
  | @word before gap word rest kind tokens ignorable begins occupied inside more induction =>
      intro token member
      rcases List.mem_cons.mp member with rfl | member
      · refine ⟨before ++ gap, word, rest, by simp, rfl, fun _ => ⟨occupied, ?_⟩⟩
        cases word with
        | nil => exact absurd rfl occupied
        | cons first word => exact begins
      · have elsewhere := induction token member
        simpa using elsewhere

theorem start_le (divides : Divides before text tokens) :
    ∀ token ∈ tokens, byteCount before ≤ token.span.start := by
  induction divides with
  | done => simp [spanning]
  | word _ _ _ _ _ induction =>
      intro token member
      rcases List.mem_cons.mp member with rfl | member
      · simp [spanning]
      · have later := induction token member
        simp only [byteCount_append] at later
        omega

theorem ordered (divides : Divides before text tokens) :
    tokens.Pairwise fun first second => first.span.stop ≤ second.span.start := by
  induction divides with
  | done => exact List.pairwise_singleton _ _
  | word _ _ _ _ more induction => exact List.pairwise_cons.mpr ⟨more.start_le, induction⟩

theorem rising (divides : Divides before text tokens) :
    tokens.Pairwise fun first second => first.span.start < second.span.start := by
  induction divides with
  | done => exact List.pairwise_singleton _ _
  | word _ _ occupied _ more induction =>
      refine List.pairwise_cons.mpr ⟨fun token member => ?_, induction⟩
      have later := more.start_le token member
      have positive := byteCount_pos occupied
      rw [byteCount_append] at later
      exact Nat.lt_of_lt_of_le (Nat.lt_add_of_pos_right positive) later

end Divides

/-- The stretches from a place on that lie outside the spans of tokens. -/
def uncovered (start : Nat) : List Token → List Span
  | [] => []
  | token :: rest => ⟨start, token.span.start⟩ :: uncovered token.span.stop rest

theorem Divides.ignorable {before text : List Char} {tokens : List Token}
    (divides : Divides before text tokens) : ∀ gap ∈ uncovered (byteCount before) tokens,
      ∃ front ignored back, before ++ text = front ++ (ignored ++ back) ∧
        gap = ⟨byteCount front, byteCount (front ++ ignored)⟩ ∧ Ignorable back ignored := by
  induction divides with
  | @done before gap ignorable =>
      intro span member
      rw [uncovered, uncovered, List.mem_singleton] at member
      exact ⟨before, gap, [], by simp, member, ignorable⟩
  | @word before gap word rest kind tokens ignorable begins occupied inside more induction =>
      intro span member
      rcases List.mem_cons.mp member with rfl | member
      · exact ⟨before, gap, word ++ rest, rfl, rfl, ignorable⟩
      · have elsewhere := induction span member
        simpa using elsewhere

/-! ## Whole texts -/

theorem eq_of_toList {source : String} {front part back : List Char}
    (whole : source.toList = front ++ (part ++ back)) :
    source = String.ofList front ++ String.ofList part ++ String.ofList back := by
  rw [← String.ofList_append, ← String.ofList_append, List.append_assoc, ← whole,
    String.ofList_toList]

theorem bytes_of_stretch {source : String} {front part back : List Char}
    (whole : source.toList = front ++ (part ++ back)) :
    (String.Pos.Raw.mk (byteCount front)).IsValid source ∧
      (String.Pos.Raw.mk (byteCount (front ++ part))).IsValid source ∧
      source.toByteArray.extract (byteCount front) (byteCount (front ++ part)) =
        (String.ofList part).toByteArray := by
  have pieces := eq_of_toList whole
  have halves := pieces
  rw [String.append_assoc] at pieces
  refine ⟨?_, ?_, ?_⟩
  · exact String.Pos.Raw.isValid_iff_exists_append.mpr ⟨_, _, pieces, rfl⟩
  · rw [← String.ofList_append] at halves
    exact String.Pos.Raw.isValid_iff_exists_append.mpr ⟨_, _, halves, rfl⟩
  · rw [pieces, String.toByteArray_append, String.toByteArray_append, byteCount_append]
    exact (ByteArray.extract_append_size_add (i := 0)).trans
      (ByteArray.extract_append_eq_left rfl)

/-- The tokens of a text divide it. The last one, and no other, marks the end; the others
cover words, in order and side by side. Every span begins and ends between characters and
holds the bytes of its token. What lies outside all spans counts for nothing, and no word
begins with anything that does. -/
theorem tokens_partition_source (source : String) :
    (∃ words, tokenize source.toList =
        words ++ [⟨.endOfInput, "", Span.empty source.utf8ByteSize,
          Location.ofOffset source.toList source.utf8ByteSize⟩] ∧
      ∀ word ∈ words, word.kind ≠ .endOfInput ∧ word.span.start < word.span.stop ∧
        BeginsWord word.text.toList) ∧
    (tokenize source.toList).Pairwise
      (fun first second => first.span.stop ≤ second.span.start) ∧
    (∀ token ∈ tokenize source.toList,
      (String.Pos.Raw.mk token.span.start).IsValid source ∧
      (String.Pos.Raw.mk token.span.stop).IsValid source ∧
      source.toByteArray.extract token.span.start token.span.stop = token.text.toByteArray) ∧
    ∀ gap ∈ uncovered 0 (tokenize source.toList), ∃ front ignored back : String,
      source = front ++ ignored ++ back ∧
        gap = ⟨front.utf8ByteSize, (front ++ ignored).utf8ByteSize⟩ ∧
        Ignorable back.toList ignored.toList := by
  have divides := divides_tokenize source.toList
  refine ⟨?_, divides.ordered, ?_, ?_⟩
  · rcases divides.ends with ⟨words, same, inside⟩
    have size : byteCount source.toList = source.utf8ByteSize := by simp [byteCount]
    refine ⟨words, ?_, ?_⟩
    · have last := ofOffset_byteCount source.toList []
      rw [List.append_nil, size] at last
      rw [same, last]
      simp [spanning, Span.empty, size]
    · intro word member
      have found : word ∈ tokenize source.toList := by
        rw [same]
        exact List.mem_append_left _ member
      rcases divides.covers word found with ⟨front, letters, back, _, covered, filled⟩
      rcases filled (inside word member) with ⟨occupied, begins⟩
      have positive := byteCount_pos occupied
      refine ⟨inside word member, ?_, ?_⟩
      · rw [covered]
        simp only [spanning, byteCount_append]
        omega
      · rw [covered]
        simpa [spanning] using begins
  · intro token member
    rcases divides.covers token member with ⟨front, letters, back, whole, covered, _⟩
    rw [covered]
    exact bytes_of_stretch whole
  · intro gap member
    rcases divides.ignorable gap member with ⟨front, ignored, back, whole, rfl, ignorable⟩
    refine ⟨String.ofList front, String.ofList ignored, String.ofList back, eq_of_toList whole,
      ?_, ?_⟩
    · rw [← String.ofList_append]
      rfl
    · rwa [String.toList_ofList, String.toList_ofList]

end GraphQuery.Token
