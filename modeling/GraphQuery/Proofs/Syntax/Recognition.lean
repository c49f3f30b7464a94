import GraphQuery.Proofs.Syntax.Spelling

namespace GraphQuery.Token

/-! Which texts have which tokens: the tokens of a text are words of the grammar, as long as
they can be, and words with something to ignore between them are the tokens of their text. -/

/-! ## What follows a word -/

theorem replaces_nil (tail : List Char) : Replaces [] tail := nofun

/-- A scanned word is a word of the grammar, and no longer one begins where it does. -/
theorem spelled_of_scan_append {first : Char} {word back : List Char} {kind : Kind}
    (scanned : scan first (word ++ back) = (kind, word.length)) (valid : kind ≠ .invalid) :
    Spelled kind (first :: word) ∧ ∀ other longer, Spelled other longer →
      longer <+: first :: word ++ back → longer.length ≤ (first :: word).length := by
  have alone := local_scan first scanned valid (replaces_nil back)
  rw [List.append_nil] at alone
  refine ⟨spelled_of_scan alone valid, ?_⟩
  rintro other longer spelled ⟨rest, whole⟩
  rcases List.append_eq_append_iff.mp whole with ⟨left, same, _⟩ | ⟨more, rfl, rfl⟩
  · have total := congrArg List.length same
    rw [List.length_append] at total
    exact total ▸ Nat.le_add_right _ _
  · -- The scanner finds the same word where the text ends with the longer one.
    have spaced : Replaces more (more ++ rest) := by
      cases more with
      | nil => exact nofun
      | cons next more => exact fun _ found => .inl found
    have further := local_scan first scanned valid spaced
    have longerScanned : scan first (word ++ more) = (other, (word ++ more).length) :=
      scan_of_spelled spelled
    rw [longerScanned] at further
    have total := congrArg Prod.snd further
    rw [List.cons_append, List.length_cons, List.length_cons]
    exact Nat.succ_le_succ (Nat.le_of_eq total)

def EndsNumber (next : Char) : Prop := isNamePart next = false ∧ next ≠ '.'

theorem endsNumber_of {next : Char} (digit : next.isDigit = false) (ends : runsOn next = false) :
    EndsNumber next := by
  simp only [runsOn, isNameStart, Bool.or_eq_false_iff, beq_eq_false_iff_ne] at ends
  simp [EndsNumber, isNamePart, Char.isAlphanum, digit, ends]

/-- Where a text of some form is scanned, a number can stand before what comes next. -/
def Stops (form : List Char → Prop) (scanner : List Char → Kind × Nat) : Prop :=
  ∀ ⦃word tail : List Char⦄ ⦃kind : Kind⦄, form (word ++ tail) →
    scanner (word ++ tail) = (kind, word.length) → kind ≠ .invalid →
    ∀ next ∈ tail.head?, EndsNumber next

theorem stops_numberEnd (given : Kind) : Stops NoDigit (numberEnd given) := by
  intro word tail kind noDigit scanned valid
  rcases numberEnd_cases given (word ++ tail) with fails | ⟨ends, stops⟩
  · rw [fails] at scanned
    exact absurd (congrArg Prod.fst scanned).symm valid
  · rw [ends] at scanned
    obtain rfl := List.eq_nil_of_length_eq_zero (congrArg Prod.snd scanned).symm
    exact fun next found => endsNumber_of (noDigit next found) (stops next found)

theorem Stops.digitsThen {next : List Char → Kind × Nat} (stops : Stops NoDigit next) :
    Stops (fun _ => True) (digitsThen next) := by
  intro word tail kind _ scanned valid
  rcases exists_digits (by rwa [scanned]) with ⟨digits, rest, whole, run, noDigit⟩
  rw [whole, digitsThen_append run noDigit] at scanned
  rcases exists_more digits whole scanned with ⟨more, rfl, rfl, same⟩
  exact stops noDigit same valid

theorem Stops.branch {scanner next otherwise : List Char → Kind × Nat} {marks : Char → Bool}
    {form : List Char → Prop} (stops : Stops (fun _ => True) next)
    (branches : Branches scanner marks next otherwise) (others : Stops form otherwise) :
    Stops form scanner := by
  intro word tail kind formed scanned valid
  by_cases outside : ∀ first ∈ (word ++ tail).head?, marks first = false
  · rw [branches.unmarked _ outside] at scanned
    exact others formed scanned valid
  · cases whole : word ++ tail with
    | nil =>
        rw [whole] at outside
        exact absurd nofun outside
    | cons mark rest =>
        have isMark : marks mark = true := by simpa [whole] using outside
        rw [whole, branches.marked mark rest isMark] at scanned
        rcases exists_more [mark] whole scanned with ⟨more, rfl, rfl, same⟩
        exact stops trivial same valid

theorem stops_scanExponent (given : Kind) : Stops NoDigit (scanExponent given) := by
  have digits := (stops_numberEnd .float).digitsThen
  exact (digits.branch (branches_signThen _) digits).branch (branches_scanExponent given)
    (stops_numberEnd given)

theorem stops_scanFraction : Stops NoDigit scanFraction :=
  (stops_scanExponent .float).digitsThen.branch branches_scanFraction (stops_scanExponent .int)

theorem stops_afterZero : Stops (fun _ => True) afterZero := by
  intro word tail kind _ scanned valid
  have noDigit := noDigit_of_afterZero (by rwa [scanned])
  rw [afterZero_eq noDigit] at scanned
  exact stops_scanFraction noDigit scanned valid

theorem stops_scanUnsigned : Stops (fun _ => True) scanUnsigned :=
  stops_afterZero.branch branches_scanUnsigned stops_scanFraction.digitsThen

theorem endsNumber_of_scan {first : Char} {word back : List Char} {kind : Kind}
    (scanned : scan first (word ++ back) = (kind, word.length))
    (number : kind = .int ∨ kind = .float) : ∀ next ∈ back.head?, EndsNumber next := by
  have valid : kind ≠ .invalid := by
    rintro rfl
    rcases number with same | same <;> cases same
  have spelled := (spelled_of_scan_append scanned valid).1
  generalize whole : first :: word = text at spelled
  cases spelled with
  | punctuator isPunctuator => rcases number with rfl | rfl <;> cases isPunctuator
  | number unsigned =>
      rcases unsigned.exists_first with ⟨digit, others, rfl, isDigit⟩
      cases whole
      have inside := (scan_digit isDigit valid).mp scanned
      exact @stops_scanUnsigned (first :: word) back kind trivial inside valid
  | negative unsigned =>
      cases whole
      exact stops_scanUnsigned trivial scanned valid
  | _ => rcases number with same | same <;> cases same

theorem Spelled.append_of_name {first next : Char} {word : List Char}
    (spelled : Spelled .name (first :: word)) (part : isNamePart next = true) :
    Spelled .name (first :: (word ++ [next])) := by
  cases spelled with
  | name start parts =>
      refine .name start ?_
      rw [List.forall_mem_append]
      exact ⟨parts, by simpa using part⟩
  | punctuator isPunctuator => cases isPunctuator
  | number unsigned => rcases unsigned.int_or_float with same | same <;> cases same
  | negative unsigned => rcases unsigned.int_or_float with same | same <;> cases same

theorem endsName_of_scan {first : Char} {word back : List Char}
    (scanned : scan first (word ++ back) = (.name, word.length)) :
    ∀ next ∈ back.head?, isNamePart next = false := by
  rcases spelled_of_scan_append scanned nofun with ⟨spelled, longest⟩
  intro next found
  rcases List.head?_eq_some_iff.mp found with ⟨rest, rfl⟩
  rw [← Bool.not_eq_true]
  intro part
  have bound := longest .name _ (spelled.append_of_name part) ⟨rest, by simp⟩
  simp only [List.length_cons, List.length_append, List.length_nil] at bound
  omega

/-! ## The tokens of a text -/

theorem scanned_of_mem (before text : List Char) : ∀ token ∈ tokensFrom (Cursor.after before text),
    token.kind ≠ .endOfInput → ∃ front first word back,
      before ++ text = front ++ (first :: word ++ back) ∧
        token = spanning token.kind front (first :: word) ∧
        scan first (word ++ back) = (token.kind, word.length) := by
  induction size : text.length using Nat.strongRecOn generalizing before text with
  | ind size induction =>
      subst size
      intro token member inside
      rcases exists_gap text with ⟨gap, rest, rfl, length, ignorable, begins⟩
      cases rest with
      | nil =>
          rw [List.append_nil, tokensFrom_of_ignorable before ignorable,
            List.mem_singleton] at member
          rw [member] at inside
          exact absurd rfl inside
      | cons first rest =>
          rcases exists_scanned first rest with ⟨kind, word, rest, rfl, scanned⟩
          rw [tokensFrom_of_word before ignorable begins scanned] at member
          rcases List.mem_cons.mp member with rfl | member
          · exact ⟨before ++ gap, first, word, rest, by simp, rfl, scanned⟩
          · have shorter : rest.length < (gap ++ first :: (word ++ rest)).length := by
              simp
              omega
            have elsewhere := induction rest.length shorter _ rest rfl token member inside
            simpa using elsewhere

/-! ## Words with something between them -/

inductive Ignored : List Char → Prop
  | blank {character : Char} (isBlank : character ∈ blanks) : Ignored [character]
  | comment {body : List Char} (oneLine : '\n' ∉ body) : Ignored ('#' :: (body ++ ['\n']))

/-- A text of words between any two of which something is ignored, as it may be before the
first and after the last. -/
inductive Separated : List Char → List (Kind × List Char) → Prop
  | nil : Separated [] []
  | ignored {item rest : List Char} {words : List (Kind × List Char)} (ignored : Ignored item)
      (more : Separated rest words) : Separated (item ++ rest) words
  | last {kind : Kind} {word : List Char} (spelled : Spelled kind word) :
      Separated word [(kind, word)]
  | word {kind : Kind} {word item rest : List Char} {words : List (Kind × List Char)}
      (spelled : Spelled kind word) (ignored : Ignored item) (more : Separated rest words) :
      Separated (word ++ (item ++ rest)) ((kind, word) :: words)

theorem Ignored.append {following item gap : List Char} (ignored : Ignored item)
    (ignorable : Ignorable following gap) : Ignorable following (item ++ gap) := by
  cases ignored with
  | blank isBlank => exact .blank isBlank ignorable
  | @comment body oneLine =>
      have line : Ignorable following ('\n' :: gap) := .blank (by decide) ignorable
      have whole : '#' :: (body ++ ['\n']) ++ gap = '#' :: (body ++ '\n' :: gap) := by simp
      rw [whole]
      refine .comment oneLine ?_ line
      rintro next ⟨⟩
      rfl

theorem Ignored.replaces {item : List Char} (ignored : Ignored item) (rest tail : List Char) :
    Replaces (item ++ rest) tail := by
  cases ignored with
  | blank isBlank =>
      rintro next ⟨⟩
      exact .inr (List.mem_cons_of_mem _ isBlank)
  | comment =>
      rintro next ⟨⟩
      exact .inr List.mem_cons_self

theorem tokensFrom_ignored (before : List Char) {item : List Char} (ignored : Ignored item)
    (rest : List Char) :
    tokensFrom (Cursor.after before (item ++ rest)) =
      tokensFrom (Cursor.after (before ++ item) rest) := by
  rcases exists_gap rest with ⟨gap, rest, rfl, _, ignorable, begins⟩
  have further := ignored.append ignorable
  cases rest with
  | nil =>
      rw [List.append_nil, tokensFrom_of_ignorable before further,
        tokensFrom_of_ignorable (before ++ item) ignorable, List.append_assoc]
  | cons first rest =>
      rcases exists_scanned first rest with ⟨kind, word, rest, rfl, scanned⟩
      rw [tokensFrom_of_word (before ++ item) ignorable begins scanned, ← List.append_assoc,
        tokensFrom_of_word before further begins scanned]
      simp only [List.append_assoc]

theorem Spelled.exists_first {kind : Kind} {text : List Char} (spelled : Spelled kind text) :
    ∃ first rest, text = first :: rest ∧ first ∉ '#' :: blanks := by
  cases spelled with
  | punctuator isPunctuator =>
      cases kind <;> cases isPunctuator <;> exact ⟨_, _, rfl, by decide⟩
  | @name first rest start =>
      refine ⟨first, rest, rfl, fun separates => ?_⟩
      have outside := (show Separates first from separates).apart.1
      rw [isNamePart_of_isNameStart start] at outside
      cases outside
  | number unsigned =>
      rcases unsigned.exists_first with ⟨first, rest, rfl, digit⟩
      refine ⟨first, rest, rfl, fun separates => ?_⟩
      have outside := (show Separates first from separates).not_isDigit
      rw [outside] at digit
      cases digit
  | negative | string | blockString => exact ⟨_, _, rfl, by decide⟩

theorem Spelled.valid {kind : Kind} {text : List Char} (spelled : Spelled kind text) :
    kind ≠ .invalid := by
  cases spelled with
  | punctuator isPunctuator =>
      rintro rfl
      cases isPunctuator
  | number unsigned | negative unsigned => exact unsigned.valid
  | name | string | blockString => exact nofun

theorem tokensFrom_spelled (before : List Char) {kind : Kind} {word rest : List Char}
    (spelled : Spelled kind word) (apart : Replaces rest []) :
    tokensFrom (Cursor.after before (word ++ rest)) =
      spanning kind before word :: tokensFrom (Cursor.after (before ++ word) rest) := by
  rcases spelled.exists_first with ⟨first, letters, rfl, begins⟩
  have alone : scan first (letters ++ []) = (kind, letters.length) := by
    rw [List.append_nil]
    exact scan_of_spelled spelled
  have scanned := local_scan first alone spelled.valid apart
  have begin : BeginsWord (first :: (letters ++ rest)) := by
    rintro next ⟨⟩
    rw [List.mem_cons, not_or] at begins
    exact begins.symm
  have covered := tokensFrom_of_word before .nil begin scanned
  rwa [List.append_nil] at covered

def written (token : Token) : Kind × List Char := (token.kind, token.text.toList)

theorem tokensFrom_separated (before : List Char) {text : List Char}
    {words : List (Kind × List Char)} (separated : Separated text words) :
    (tokensFrom (Cursor.after before text)).map written = words ++ [(.endOfInput, [])] := by
  induction separated generalizing before with
  | nil =>
      rw [tokensFrom_of_ignorable before .nil]
      rfl
  | ignored ignored more induction => rw [tokensFrom_ignored before ignored, induction]
  | @last kind word spelled =>
      have covered := tokensFrom_spelled before spelled (replaces_nil [])
      rw [List.append_nil, tokensFrom_of_ignorable (before ++ word) .nil] at covered
      rw [covered]
      simp [written, spanning]
  | @word kind word item rest words spelled ignored more induction =>
      rw [tokensFrom_spelled before spelled (ignored.replaces rest []),
        tokensFrom_ignored _ ignored, List.map_cons, induction, List.cons_append]
      simp [written, spanning]

/-! ## Whole texts -/

/-- The tokens of a text that are no faults are words of the grammar, none of which could be
longer; a name stands before no letter, digit or underscore, and a number before none of them
and no point. Words of the grammar with something to ignore between them are, as they are
written, the tokens of their text, of which the end is the last. -/
theorem tokenize_recognizes_grammar (text : List Char) :
    (∀ token ∈ tokenize text, token.kind ≠ .endOfInput → token.kind ≠ .invalid →
      ∃ front word back, text = front ++ (word ++ back) ∧
        token = spanning token.kind front word ∧ Spelled token.kind word ∧
        (∀ kind longer, Spelled kind longer → longer <+: word ++ back →
          longer.length ≤ word.length) ∧
        (token.kind = .name → ∀ next ∈ back.head?, isNamePart next = false) ∧
        (token.kind = .int ∨ token.kind = .float →
          ∀ next ∈ back.head?, isNamePart next = false ∧ next ≠ '.')) ∧
    ∀ words, Separated text words →
      (tokenize text).map (fun token => (token.kind, token.text.toList)) =
        words ++ [(.endOfInput, [])] := by
  refine ⟨?_, fun words separated => tokensFrom_separated [] separated⟩
  intro token member inside valid
  rcases scanned_of_mem [] text token member inside with
    ⟨front, first, word, back, whole, covered, scanned⟩
  rcases spelled_of_scan_append scanned valid with ⟨spelled, longest⟩
  refine ⟨front, first :: word, back, whole, covered, spelled, longest, ?_, ?_⟩
  · intro isName
    rw [isName] at scanned
    exact endsName_of_scan scanned
  · exact endsNumber_of_scan scanned

/-- A name and a number with a blank and a comment between them. -/
theorem tokenize_recognizes_grammar_words :
    (tokenize ['o', 'n', ' ', '#', 'x', '\n', '-', '0', '.', '5', 'e', '+', '3']).map
        (fun token => (token.kind, token.text.toList)) =
      [(.name, ['o', 'n']), (.float, ['-', '0', '.', '5', 'e', '+', '3']),
        (.endOfInput, [])] := by
  have isName : Spelled .name ['o', 'n'] :=
    .name (by decide) (List.forall_mem_singleton.mpr (by decide))
  have power : Exponent ['e', '+', '3'] :=
    .signed (by decide) (by decide) ⟨by decide, by simp⟩
  have digits : DigitRun ['5'] := ⟨by decide, by simp⟩
  have isNumber : Spelled .float ['-', '0', '.', '5', 'e', '+', '3'] :=
    .negative (.intro .zero (.fraction digits (.inr power)))
  have blank : Ignored [' '] := .blank (by decide)
  have comment : Ignored ['#', 'x', '\n'] := @Ignored.comment ['x'] (by decide)
  have separated := Separated.word isName blank (.ignored comment (.last isNumber))
  exact (tokenize_recognizes_grammar _).2 _ separated

end GraphQuery.Token
