import GraphQuery.Proofs.Syntax.Recognition

namespace GraphQuery.Token

/-! The lexemes of a text that is put together from words. They do not depend on where a word
stands, but only on its not running into what comes after it. -/

/-! ## Where a text stands -/

theorem lexeme_spanning (kind : Kind) (before other word : List Char) :
    (spanning kind before word).lexeme = (spanning kind other word).lexeme := by
  cases kind <;> rfl

theorem lexeme_tokensFrom (before other text : List Char) :
    (tokensFrom (Cursor.after before text)).map lexeme =
      (tokensFrom (Cursor.after other text)).map lexeme := by
  induction size : text.length using Nat.strongRecOn generalizing before other text with
  | ind size induction =>
      subst size
      rcases exists_gap text with ⟨gap, rest, rfl, _, ignorable, begins⟩
      cases rest with
      | nil =>
          rw [List.append_nil, tokensFrom_of_ignorable before ignorable,
            tokensFrom_of_ignorable other ignorable]
          rfl
      | cons first rest =>
          rcases exists_scanned first rest with ⟨kind, word, rest, rfl, scanned⟩
          have shorter : rest.length < (gap ++ first :: (word ++ rest)).length := by
            simp only [List.length_append, List.length_cons]
            omega
          rw [tokensFrom_of_word before ignorable begins scanned,
            tokensFrom_of_word other ignorable begins scanned, List.map_cons, List.map_cons,
            lexeme_spanning kind _ (other ++ gap)]
          exact congrArg _ (induction rest.length shorter _ _ rest rfl)

theorem lexemes_after (before text : List Char) :
    (tokensFrom (Cursor.after before text)).dropLast.map lexeme = lexemes text := by
  have same := lexeme_tokensFrom before [] text
  rw [lexemes, List.map_dropLast, List.map_dropLast, same]
  rfl

theorem tokensFrom_ne_nil (before text : List Char) :
    tokensFrom (Cursor.after before text) ≠ [] := by
  have divides := divides_tokensFrom before text
  intro none
  rw [none] at divides
  cases divides

/-! ## One word after another -/

theorem beginsWord_cons {first : Char} (begins : first ∉ '#' :: blanks) (rest : List Char) :
    BeginsWord (first :: rest) := by
  rintro next ⟨⟩
  rw [List.mem_cons, not_or] at begins
  exact begins.symm

/-- After what counts for nothing there is a word, and then the words of what comes after it. -/
theorem lexemes_of_scan {gap word rest : List Char} {first : Char} {kind : Kind}
    (ignorable : Ignorable (first :: (word ++ rest)) gap) (begins : first ∉ '#' :: blanks)
    (scanned : scan first (word ++ rest) = (kind, word.length)) :
    lexemes (gap ++ first :: (word ++ rest)) =
      (spanning kind [] (first :: word)).lexeme :: lexemes rest := by
  have covered := tokensFrom_of_word [] ignorable (beginsWord_cons begins _) scanned
  rw [← lexemes_after [] (gap ++ first :: (word ++ rest)), covered,
    List.dropLast_cons_of_ne_nil (tokensFrom_ne_nil _ rest), List.map_cons, lexemes_after,
    lexeme_spanning kind _ []]

theorem lexemes_gap {gap rest : List Char} {first : Char}
    (ignorable : Ignorable (first :: rest) gap) (begins : first ∉ '#' :: blanks) :
    lexemes (gap ++ first :: rest) = lexemes (first :: rest) := by
  rcases exists_scanned first rest with ⟨kind, word, rest, rfl, scanned⟩
  exact (lexemes_of_scan ignorable begins scanned).trans
    (lexemes_of_scan .nil begins scanned).symm

theorem lexemes_ignored {item : List Char} (ignored : Ignored item) (rest : List Char) :
    lexemes (item ++ rest) = lexemes rest := by
  rw [← lexemes_after [] (item ++ rest), tokensFrom_ignored [] ignored, lexemes_after]

theorem lexemes_blank {character : Char} (isBlank : character ∈ blanks) (rest : List Char) :
    lexemes (character :: rest) = lexemes rest :=
  lexemes_ignored (.blank isBlank) rest

theorem Ignorable.before {following gap : List Char} (ignorable : Ignorable following gap)
    (occupied : following ≠ []) (begins : BeginsWord following) (other : List Char) :
    Ignorable other gap := by
  induction ignorable with
  | nil => exact .nil
  | blank isBlank more induction => exact .blank isBlank induction
  | @comment body rest oneLine stops more induction =>
      refine .comment oneLine ?_ induction
      cases rest with
      | cons first rest => exact stops
      | nil =>
          -- The line of the comment would have to end where the word begins.
          obtain ⟨first, others, rfl⟩ := List.exists_cons_of_ne_nil occupied
          have lineFeed : first = '\n' := stops first rfl
          rw [lineFeed] at begins
          exact absurd (begins '\n' rfl).1 (by decide)

/-! ## What words do not run into -/

/-- What comes after a word of this kind does not run into it, where it could: into a name, an
integer or a quoted string. -/
def Clear (kind : Kind) (rest : List Char) : Prop :=
  match kind with
  | .name => ∀ next ∈ rest.head?, isNamePart next = false
  | .int => ∀ next ∈ rest.head?, EndsNumber next
  | .string => ∀ next ∈ rest.head?, next ≠ '"'
  | _ => True

theorem clear_cons {next : Char} (ends : EndsNumber next) (noQuote : next ≠ '"') (kind : Kind)
    (rest : List Char) : Clear kind (next :: rest) := by
  cases kind with
  | name =>
      rintro first ⟨⟩
      exact ends.1
  | int =>
      rintro first ⟨⟩
      exact ends
  | string =>
      rintro first ⟨⟩
      exact noQuote
  | _ => trivial

theorem EndsNumber.not_runsOn {next : Char} (ends : EndsNumber next) : runsOn next = false := by
  rw [← Bool.not_eq_true, runsOn, Bool.or_eq_true, beq_iff_eq]
  rintro (start | point)
  · have part := isNamePart_of_isNameStart start
    rw [ends.1] at part
    cases part
  · exact ends.2 point

theorem EndsNumber.not_isDigit {next : Char} (ends : EndsNumber next) : next.isDigit = false := by
  rw [← Bool.not_eq_true]
  intro digit
  have part := isNamePart_of_isDigit digit
  rw [ends.1] at part
  cases part

theorem scanFraction_clear {rest : List Char} (clear : ∀ next ∈ rest.head?, EndsNumber next) :
    scanFraction rest = (.int, 0) := by
  have noPoint : ∀ next ∈ rest.head?, (next == '.') = false :=
    fun next found => beq_eq_false_iff_ne.mpr (clear next found).2
  have noExponent : ∀ next ∈ rest.head?, (next == 'e' || next == 'E') = false := by
    intro next found
    rw [← Bool.not_eq_true, Bool.or_eq_true, beq_iff_eq, beq_iff_eq]
    rintro (rfl | rfl) <;> cases (clear _ found).1
  rw [branches_scanFraction.unmarked rest noPoint,
    (branches_scanExponent .int).unmarked rest noExponent]
  exact numberEnd_eq .int fun next found => (clear next found).not_runsOn

theorem scanUnsigned_clear {digits rest : List Char} (unsigned : Unsigned .int digits)
    (clear : ∀ next ∈ rest.head?, EndsNumber next) :
    scanUnsigned (digits ++ rest) = (.int, digits.length) := by
  have noDigit : NoDigit rest := fun next found => (clear next found).not_isDigit
  cases unsigned with
  | intro isWhole remains =>
      cases remains with
      | none =>
          rw [List.append_nil]
          cases isWhole with
          | zero =>
              rw [List.singleton_append, branches_scanUnsigned.marked '0' rest rfl,
                afterZero_eq noDigit, scanFraction_clear clear]
              rfl
          | digits run leading =>
              rw [branches_scanUnsigned.unmarked, digitsThen_append run noDigit,
                scanFraction_clear clear]
              · rfl
              · intro first found
                rcases run.exists_first with ⟨digit, others, rfl, _⟩
                cases found
                simpa using leading

theorem scanString_append {body : List Char} (closes : StringRest body) (rest : List Char) :
    scanString (body ++ rest) = (.string, body.length) := by
  induction closes with
  | close => rfl
  | @escape taken body more induction =>
      rw [List.cons_append, List.cons_append, scanString]
      exact (after_length ['\\', taken]).mpr induction
  | @ordinary character body isOrdinary more induction =>
      rw [List.cons_append, scanString_ordinary isOrdinary]
      exact (after_length [character]).mpr induction

theorem StringRest.not_open_append {word rest : List Char} (closes : StringRest word)
    (clear : Clear .string rest) (body : List Char) : word ++ rest ≠ '"' :: '"' :: body := by
  intro opens
  cases closes with
  | close =>
      cases opens
      exact clear '"' rfl rfl
  | escape => cases opens
  | ordinary isOrdinary =>
      rw [List.cons_append, List.cons.injEq] at opens
      rw [opens.1] at isOrdinary
      exact absurd isOrdinary (by decide)

theorem scan_clear {first : Char} {word rest : List Char} {kind : Kind}
    (spelled : Spelled kind (first :: word)) (plain : kind ≠ .float ∧ kind ≠ .blockString)
    (clear : Clear kind rest) : scan first (word ++ rest) = (kind, word.length) := by
  generalize whole : first :: word = text at spelled
  cases spelled with
  | punctuator isPunctuator => cases kind <;> cases isPunctuator <;> cases whole <;> rfl
  | name start parts =>
      cases whole
      rw [scan_nameStart start, runLength_eq parts clear]
  | number unsigned =>
      rcases unsigned.exists_first with ⟨digit, others, rfl, isDigit⟩
      obtain rfl := unsigned.int_or_float.resolve_right plain.1
      cases whole
      have scanned := scanUnsigned_clear unsigned clear
      exact (scan_digit isDigit (by decide : Kind.int ≠ .invalid)).mpr scanned
  | negative unsigned =>
      obtain rfl := unsigned.int_or_float.resolve_right plain.1
      cases whole
      exact scanUnsigned_clear unsigned clear
  | string closes =>
      cases whole
      rw [scan_quote (closes.not_open_append clear), scanString_append closes]
  | blockString => exact absurd rfl plain.2

/-! ## One word before others -/

theorem lexemes_nil : lexemes [] = [] := by
  have ends := @tokensFrom_of_ignorable [] [] .nil
  rw [← lexemes_after [] [], ends]
  rfl

theorem lexemes_spelled {gap word rest : List Char} {kind : Kind}
    (ignorable : Ignorable (word ++ rest) gap) (spelled : Spelled kind word)
    (plain : kind ≠ .float ∧ kind ≠ .blockString) (clear : Clear kind rest) :
    lexemes (gap ++ (word ++ rest)) = (spanning kind [] word).lexeme :: lexemes rest := by
  rcases spelled.exists_first with ⟨first, word, rfl, begins⟩
  exact lexemes_of_scan ignorable begins (scan_clear spelled plain clear)

theorem lexemes_gap_mark {gap word rest : List Char} {kind : Kind}
    (isPunctuator : kind.isPunctuator = true) (ignorable : Ignorable (word ++ rest) gap)
    (spelled : Spelled kind word) :
    lexemes (gap ++ (word ++ rest)) = .mark kind :: lexemes rest := by
  have plain : kind ≠ .float ∧ kind ≠ .blockString := by
    constructor <;> rintro rfl <;> cases isPunctuator
  have clear : Clear kind rest := by
    cases kind <;> cases isPunctuator <;> trivial
  rw [lexemes_spelled ignorable spelled plain clear]
  exact congrArg (· :: _) ((lexeme_eq_mark isPunctuator).mpr rfl)

theorem lexemes_mark (kind : Kind) (isPunctuator : kind.isPunctuator = true) (rest : List Char) :
    lexemes (kind.symbol.toList ++ rest) = .mark kind :: lexemes rest :=
  lexemes_gap_mark isPunctuator .nil (.punctuator isPunctuator)

theorem lexemes_word (word : Lexeme) {text : String} {rest : List Char}
    (written : word.text? = some text) (spelled : Spelled word.kind text.toList)
    (plain : word.kind ≠ .float ∧ word.kind ≠ .blockString) (clear : Clear word.kind rest) :
    lexemes (text.toList ++ rest) = word :: lexemes rest := by
  have found := lexemes_spelled .nil spelled plain clear
  rw [spanning, String.ofList_toList] at found
  cases word with
  | mark => cases written
  | _ =>
      cases written
      exact found

theorem lexemes_name {label : String} (isName : Spelled .name label.toList) {rest : List Char}
    (clear : Clear .name rest) : lexemes (label.toList ++ rest) = .name label :: lexemes rest :=
  lexemes_word (.name label) rfl isName ⟨nofun, nofun⟩ clear

theorem spelled_of_name_mem {text : List Char} {label : String}
    (member : .name label ∈ lexemes text) : Spelled .name label.toList := by
  rcases List.mem_map.mp member with ⟨token, among, same⟩
  obtain ⟨isName, rfl⟩ := lexeme_eq_name.mp same
  have inside : token.kind ≠ .endOfInput := by
    rw [isName]
    decide
  rcases scanned_of_mem [] text token (List.dropLast_subset _ among) inside with
    ⟨front, first, word, back, _, covered, scanned⟩
  rw [isName] at covered scanned
  rw [covered, spanning, String.toList_ofList]
  exact (spelled_of_scan_append scanned (by decide)).1

end GraphQuery.Token
