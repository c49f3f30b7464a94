import GraphQuery.Proofs.Syntax.Layout

namespace GraphQuery.Token

/-! Tokens do not depend on what comes after them, as long as it does not run into
them. So the first tokens of a text are tokens of other texts as well. -/

/-! ## What may follow a word -/

def Separates (character : Char) : Prop := character ∈ '#' :: blanks

theorem Separates.apart {character : Char} (separates : Separates character) :
    isNamePart character = false ∧ character ≠ '.' ∧ character ≠ '"' ∧ character ≠ '+' ∧
      character ≠ '-' := by
  simp only [Separates, blanks, List.mem_cons, List.not_mem_nil, or_false] at separates
  rcases separates with rfl | rfl | rfl | rfl | rfl | rfl | rfl <;> decide

/-- A text that can stand in the place of another one after a word: it begins alike, or it
begins with what belongs to no word. -/
def Replaces (other tail : List Char) : Prop :=
  ∀ next ∈ other.head?, next ∈ tail.head? ∨ Separates next

def Local (scanner : List Char → Kind × Nat) : Prop :=
  ∀ ⦃word tail other : List Char⦄ ⦃kind : Kind⦄,
    scanner (word ++ tail) = (kind, word.length) → kind ≠ .invalid → Replaces other tail →
    scanner (word ++ other) = (kind, word.length)

theorem Replaces.head?_ne {other tail : List Char} (replaces : Replaces other tail)
    {mark : Char} (differs : tail.head? ≠ some mark) (joined : ¬ Separates mark) :
    other.head? ≠ some mark := by
  intro found
  rcases replaces mark found with same | separates
  · exact differs same
  · exact joined separates

theorem Replaces.all {other tail : List Char} (replaces : Replaces other tail)
    {within : Char → Bool} (apart : ∀ character, Separates character → within character = false)
    (outside : ∀ next ∈ tail.head?, within next = false) :
    ∀ next ∈ other.head?, within next = false := by
  intro next found
  rcases replaces next found with same | separates
  · exact outside next same
  · exact apart next separates

/-! ## Names and numbers -/

theorem isNamePart_of_isDigit {character : Char} (digit : character.isDigit = true) :
    isNamePart character = true := by
  simp [isNamePart, Char.isAlphanum, digit]

theorem Separates.not_isDigit {character : Char} (separates : Separates character) :
    character.isDigit = false := by
  rw [← Bool.not_eq_true]
  intro digit
  have part := isNamePart_of_isDigit digit
  rw [separates.apart.1] at part
  cases part

theorem runLength_cons (within : Char → Bool) (first : Char) (rest : List Char) :
    runLength within (first :: rest) =
      if within first then runLength within rest + 1 else 0 := by
  unfold runLength
  rw [List.takeWhile_cons]
  split <;> simp_all

theorem runLength_replaced {within : Char → Bool}
    (apart : ∀ character, Separates character → within character = false)
    {word tail other : List Char} (ends : runLength within (word ++ tail) ≤ word.length)
    (replaces : Replaces other tail) :
    runLength within (word ++ other) = runLength within (word ++ tail) := by
  induction word with
  | nil =>
      rw [List.nil_append, List.length_nil, Nat.le_zero] at ends
      rw [List.nil_append, List.nil_append, ends]
      cases other with
      | nil => rfl
      | cons next other =>
          have outside : within next = false := by
            apply replaces.all apart _ next rfl
            intro first found
            cases tail with
            | nil => cases found
            | cons first tail =>
                cases found
                rw [runLength_cons] at ends
                split at ends
                · cases ends
                next outside => exact Bool.not_eq_true _ ▸ outside
          rw [runLength_cons, outside]
          rfl
  | cons first word induction =>
      rw [List.cons_append, runLength_cons] at ends
      rw [List.cons_append, List.cons_append, runLength_cons, runLength_cons]
      split
      next inside =>
        rw [if_pos inside, List.length_cons] at ends
        rw [induction (Nat.le_of_succ_le_succ ends)]
      · rfl

def runsOn (next : Char) : Bool := isNameStart next || next == '.'

theorem Separates.not_runsOn {character : Char} (separates : Separates character) :
    runsOn character = false := by
  have start (letter : isNameStart character = true) : isNamePart character = true := by
    simp only [isNameStart, isNamePart, Char.isAlphanum, Bool.or_eq_true] at letter ⊢
    rcases letter with letter | underscore
    · exact .inl (.inl letter)
    · exact .inr underscore
  rw [separates.apart.1] at start
  simpa [runsOn, separates.apart.2.1] using start

theorem numberEnd_eq (kind : Kind) {text : List Char}
    (stops : ∀ next ∈ text.head?, runsOn next = false) : numberEnd kind text = (kind, 0) := by
  cases text with
  | nil => rfl
  | cons next rest =>
      have stop := stops next rfl
      rw [runsOn] at stop
      simp [numberEnd, stop]

theorem numberEnd_cases (kind : Kind) (text : List Char) :
    numberEnd kind text = (.invalid, 0) ∨
      numberEnd kind text = (kind, 0) ∧ ∀ next ∈ text.head?, runsOn next = false := by
  cases text with
  | nil => exact .inr ⟨rfl, nofun⟩
  | cons next rest =>
      cases stop : runsOn next with
      | true =>
          rw [runsOn] at stop
          exact .inl (by simp [numberEnd, stop])
      | false =>
          have stops : ∀ first ∈ (next :: rest).head?, runsOn first = false := by
            rintro first ⟨⟩
            exact stop
          exact .inr ⟨numberEnd_eq kind stops, stops⟩

theorem after_eq {count total : Nat} {scan : Kind × Nat} {kind : Kind} :
    after count scan = (kind, count + total) ↔ scan = (kind, total) := by
  rcases scan with ⟨found, more⟩
  simp [after]

theorem local_numberEnd (kind : Kind) : Local (numberEnd kind) := by
  intro word tail other found scanned valid replaces
  rcases numberEnd_cases kind (word ++ tail) with fails | ⟨ends, stops⟩
  · rw [fails] at scanned
    exact absurd (congrArg Prod.fst scanned).symm valid
  · rw [ends] at scanned
    cases word with
    | nil =>
        cases scanned
        exact numberEnd_eq kind (replaces.all (fun _ => Separates.not_runsOn) stops)
    | cons first word => cases scanned

def Takes (scanner : List Char → Kind × Nat) : Prop :=
  ∀ text, (scanner text).1 ≠ .invalid → 0 < (scanner text).2

theorem takes_digitsThen (next : List Char → Kind × Nat) : Takes (digitsThen next) := by
  intro text valid
  simp only [digitsThen] at valid ⊢
  split at valid
  · exact absurd rfl valid
  next some =>
    rw [if_neg some]
    simp only [after]
    omega

theorem Local.digitsThen {next : List Char → Kind × Nat} (isLocal : Local next) :
    Local (digitsThen next) := by
  intro word tail other kind scanned valid replaces
  simp only [Token.digitsThen] at scanned ⊢
  split at scanned
  · exact absurd (congrArg Prod.fst scanned).symm valid
  next some =>
    have inside : runLength Char.isDigit (word ++ tail) ≤ word.length := by
      have counted := congrArg Prod.snd scanned
      simp only [after] at counted
      omega
    have total : word.length = runLength Char.isDigit (word ++ tail) +
        (word.drop (runLength Char.isDigit (word ++ tail))).length := by
      rw [List.length_drop]
      omega
    have same := runLength_replaced (fun _ => Separates.not_isDigit) inside replaces
    rw [same, if_neg some]
    rw [List.drop_append_of_le_length inside, total, after_eq] at scanned
    rw [List.drop_append_of_le_length inside, total, after_eq]
    exact isLocal scanned valid replaces

theorem Local.after {next : List Char → Kind × Nat} (isLocal : Local next) (first : Char)
    {word tail other : List Char} {kind : Kind}
    (scanned : Token.after 1 (next (word ++ tail)) = (kind, (first :: word).length))
    (valid : kind ≠ .invalid) (replaces : Replaces other tail) :
    Token.after 1 (next (word ++ other)) = (kind, (first :: word).length) := by
  rw [List.length_cons, Nat.add_comm, after_eq] at scanned ⊢
  exact isLocal scanned valid replaces

theorem after_one_ne {scan : Kind × Nat} {kind : Kind} : after 1 scan ≠ (kind, 0) := by
  intro same
  have counted := congrArg Prod.snd same
  simp only [after] at counted
  omega

/-- A scanner that goes on with one scanner after certain marks and with another one where
none of them comes first. -/
structure Branches (scanner : List Char → Kind × Nat) (marks : Char → Bool)
    (next otherwise : List Char → Kind × Nat) : Prop where
  marked : ∀ mark rest, marks mark = true → scanner (mark :: rest) = after 1 (next rest)
  unmarked : ∀ text : List Char, (∀ first ∈ text.head?, marks first = false) →
    scanner text = otherwise text

theorem Branches.isLocal {scanner next otherwise : List Char → Kind × Nat} {marks : Char → Bool}
    (branches : Branches scanner marks next otherwise)
    (joined : ∀ character, Separates character → marks character = false)
    (localNext : Local next) (localOtherwise : Local otherwise) : Local scanner := by
  intro word tail other kind scanned valid replaces
  cases word with
  | nil =>
      have outside : ∀ first ∈ tail.head?, marks first = false := by
        intro first found
        rw [← Bool.not_eq_true]
        intro isMark
        cases tail with
        | nil => cases found
        | cons mark tail =>
            cases found
            rw [List.nil_append, branches.marked first tail isMark] at scanned
            exact after_one_ne scanned
      rw [List.nil_append, branches.unmarked _ (replaces.all joined outside)]
      rw [List.nil_append, branches.unmarked _ outside] at scanned
      exact @localOtherwise [] tail other kind scanned valid replaces
  | cons first word =>
      cases isMark : marks first with
      | true =>
          rw [List.cons_append, branches.marked _ _ isMark] at scanned ⊢
          exact localNext.after first scanned valid replaces
      | false =>
          have outside (rest : List Char) : ∀ head ∈ (first :: rest).head?, marks head = false := by
            rintro head ⟨⟩
            exact isMark
          rw [List.cons_append, branches.unmarked _ (outside _)] at scanned ⊢
          exact @localOtherwise (first :: word) tail other kind scanned valid replaces

theorem branches_signThen (next : List Char → Kind × Nat) :
    Branches (signThen next) (fun first => first == '+' || first == '-') next next := by
  constructor
  · intro mark rest isMark
    simp only [Bool.or_eq_true, beq_iff_eq] at isMark
    rcases isMark with rfl | rfl <;> rfl
  · intro text outside
    unfold signThen
    split
    · cases outside _ rfl
    · cases outside _ rfl
    · rfl

theorem branches_scanExponent (kind : Kind) :
    Branches (scanExponent kind) (fun first => first == 'e' || first == 'E')
      (signThen (digitsThen (numberEnd .float))) (numberEnd kind) := by
  constructor
  · intro mark rest isMark
    simp only [scanExponent, isMark, if_true]
  · intro text outside
    cases text with
    | nil => rfl
    | cons mark rest =>
        have unmarked := outside mark rfl
        simp only [scanExponent, unmarked, Bool.false_eq_true, if_false]

theorem branches_scanFraction :
    Branches scanFraction (· == '.') (digitsThen (scanExponent .float)) (scanExponent .int) := by
  constructor
  · intro mark rest isMark
    obtain rfl := beq_iff_eq.mp isMark
    rfl
  · intro text outside
    unfold scanFraction
    split
    · cases outside _ rfl
    · rfl

theorem Local.signThen {next : List Char → Kind × Nat} (isLocal : Local next) :
    Local (signThen next) := by
  apply (branches_signThen next).isLocal _ isLocal isLocal
  intro character separates
  simp [separates.apart.2.2.2]

theorem local_scanExponent (kind : Kind) : Local (scanExponent kind) := by
  apply (branches_scanExponent kind).isLocal _ (local_numberEnd .float).digitsThen.signThen
    (local_numberEnd kind)
  intro character separates
  rw [← Bool.not_eq_true, Bool.or_eq_true, beq_iff_eq, beq_iff_eq]
  rintro (rfl | rfl) <;> cases separates.apart.1

theorem local_scanFraction : Local scanFraction := by
  apply branches_scanFraction.isLocal _ (local_scanExponent .float).digitsThen
    (local_scanExponent .int)
  intro character separates
  exact beq_eq_false_iff_ne.mpr separates.apart.2.1

def afterZero (text : List Char) : Kind × Nat :=
  match text with
  | next :: _ => if next.isDigit then (.invalid, 0) else scanFraction text
  | [] => scanFraction text

theorem afterZero_eq {text : List Char} (noDigit : ∀ next ∈ text.head?, next.isDigit = false) :
    afterZero text = scanFraction text := by
  cases text with
  | nil => rfl
  | cons next rest => simp [afterZero, noDigit next rfl]

theorem noDigit_of_afterZero {text : List Char} (valid : (afterZero text).1 ≠ .invalid) :
    ∀ next ∈ text.head?, next.isDigit = false := by
  intro next found
  cases text with
  | nil => cases found
  | cons next rest =>
      cases found
      rw [← Bool.not_eq_true]
      intro digit
      simp [afterZero, digit] at valid

theorem branches_scanUnsigned :
    Branches scanUnsigned (· == '0') afterZero (digitsThen scanFraction) := by
  constructor
  · intro mark rest isMark
    obtain rfl := beq_iff_eq.mp isMark
    cases rest with
    | nil => rfl
    | cons next rest =>
        simp only [scanUnsigned, afterZero]
        split <;> rfl
  · intro text outside
    unfold scanUnsigned
    split
    · cases outside _ rfl
    · rfl

theorem local_afterZero : Local afterZero := by
  intro word tail other kind scanned valid replaces
  have noDigit := noDigit_of_afterZero (by rwa [scanned])
  have stillNone : ∀ next ∈ (word ++ other).head?, next.isDigit = false := by
    cases word with
    | nil => exact replaces.all (fun _ => Separates.not_isDigit) noDigit
    | cons first word => exact noDigit
  rw [afterZero_eq stillNone]
  rw [afterZero_eq noDigit] at scanned
  exact local_scanFraction scanned valid replaces

theorem local_scanUnsigned : Local scanUnsigned := by
  apply branches_scanUnsigned.isLocal _ local_afterZero local_scanFraction.digitsThen
  intro character separates
  rw [← Bool.not_eq_true, beq_iff_eq]
  rintro rfl
  cases separates.apart.1

theorem takes_scanUnsigned : Takes scanUnsigned := by
  intro text valid
  by_cases outside : ∀ first ∈ text.head?, (first == '0') = false
  · rw [branches_scanUnsigned.unmarked text outside] at valid ⊢
    exact takes_digitsThen _ text valid
  · cases text with
    | nil => exact absurd nofun outside
    | cons first rest =>
        have isZero : (first == '0') = true := by simpa using outside
        rw [branches_scanUnsigned.marked first rest isZero]
        exact Nat.add_pos_left Nat.one_pos _

/-! ## Strings -/

theorem exists_more (front : List Char) {rest word tail : List Char} {scan : Kind × Nat}
    {kind : Kind}
    (whole : word ++ tail = front ++ rest)
    (scanned : after front.length scan = (kind, word.length)) :
    ∃ more, word = front ++ more ∧ rest = more ++ tail ∧ scan = (kind, more.length) := by
  have counted := congrArg Prod.snd scanned
  simp only [after] at counted
  rcases List.append_eq_append_iff.mp whole with ⟨left, rfl, rfl⟩ | ⟨more, rfl, rfl⟩
  · rw [List.length_append] at counted
    obtain rfl : left = [] := List.eq_nil_of_length_eq_zero (by omega)
    refine ⟨[], by simp, rfl, ?_⟩
    rw [List.append_nil] at scanned
    exact after_eq.mp scanned
  · rw [List.length_append, after_eq] at scanned
    exact ⟨more, rfl, rfl, scanned⟩

theorem scanString_ordinary {character : Char} (ordinary : character ∉ ['"', '\n', '\x0d', '\\'])
    (rest : List Char) : scanString (character :: rest) = after 1 (scanString rest) := by
  simp only [List.mem_cons, not_or] at ordinary
  rw [scanString]
  all_goals simp_all

theorem local_scanString : Local scanString := by
  intro word tail other kind scanned valid replaces
  generalize whole : word ++ tail = text at scanned
  fun_induction scanString text generalizing word with
  | case2 rest =>
      have closed : after 1 (.string, 0) = (kind, word.length) := scanned
      rcases exists_more ['"'] whole closed with ⟨more, rfl, _, same⟩
      obtain ⟨rfl, none⟩ := Prod.mk.inj same
      obtain rfl := List.eq_nil_of_length_eq_zero none.symm
      rfl
  | case5 taken rest induction =>
      rcases exists_more ['\\', taken] whole scanned with ⟨more, rfl, rfl, same⟩
      have escaped : scanString ('\\' :: taken :: (more ++ other)) =
          after 2 (scanString (more ++ other)) := by rw [scanString]
      rw [List.append_assoc, List.cons_append, List.singleton_append, escaped,
        induction rfl same, List.length_append]
      exact after_eq.mpr rfl
  | case6 first rest notQuote notLine notReturn notEscape induction =>
      rcases exists_more [first] whole scanned with ⟨more, rfl, rfl, same⟩
      have ordinary : first ∉ ['"', '\n', '\x0d', '\\'] := by
        simp only [List.mem_cons, not_or, List.not_mem_nil, not_false_eq_true, and_true]
        refine ⟨notQuote, notLine, notReturn, ?_⟩
        rintro rfl
        cases text : more ++ tail with
        | nil =>
            rw [text] at same
            exact valid (congrArg Prod.fst same).symm
        | cons taken rest => exact notEscape taken rest rfl text
      rw [List.append_assoc, List.singleton_append, scanString_ordinary ordinary,
        induction rfl same, List.length_append]
      exact after_eq.mpr rfl
  | _ => exact absurd (congrArg Prod.fst scanned).symm valid

theorem three_le_scanBlockString (text : List Char) (valid : (scanBlockString text).1 ≠ .invalid) :
    3 ≤ (scanBlockString text).2 := by
  fun_induction scanBlockString text with
  | case1 => exact absurd rfl valid
  | case2 rest => exact Nat.le_refl 3
  | case3 rest induction =>
      have more := induction valid
      simp only [after]
      omega
  | case4 first rest _ _ induction =>
      have more := induction valid
      simp only [after]
      omega

theorem local_scanBlockString : Local scanBlockString := by
  intro word tail other kind scanned valid replaces
  generalize whole : word ++ tail = text at scanned
  fun_induction scanBlockString text generalizing word with
  | case1 => exact absurd (congrArg Prod.fst scanned).symm valid
  | case2 rest =>
      have closed : after 3 (.blockString, 0) = (kind, word.length) := scanned
      rcases exists_more ['"', '"', '"'] whole closed with ⟨more, rfl, _, same⟩
      obtain ⟨rfl, none⟩ := Prod.mk.inj same
      obtain rfl := List.eq_nil_of_length_eq_zero none.symm
      rfl
  | case3 rest induction =>
      rcases exists_more ['\\', '"', '"', '"'] whole scanned with ⟨more, rfl, rfl, same⟩
      have escaped : scanBlockString ('\\' :: '"' :: '"' :: '"' :: (more ++ other)) =
          after 4 (scanBlockString (more ++ other)) := by rw [scanBlockString]
      rw [List.append_assoc, List.cons_append, List.cons_append, List.cons_append,
        List.singleton_append, escaped, induction rfl same, List.length_append]
      exact after_eq.mpr rfl
  | case4 first rest notClosed notEscape induction =>
      rcases exists_more [first] whole scanned with ⟨more, rfl, rfl, same⟩
      have enough := three_le_scanBlockString (more ++ tail) (by rwa [same])
      rw [same] at enough
      match more, enough with
      | second :: third :: fourth :: more, _ =>
        -- The characters that could close the string or be escaped are all in the word.
        have ordinary : scanBlockString (first :: second :: third :: fourth :: (more ++ other)) =
            after 1 (scanBlockString (second :: third :: fourth :: (more ++ other))) := by
          rw [scanBlockString]
          · rintro rest rfl ⟨⟩
            exact notClosed _ rfl rfl
          · rintro rest rfl ⟨⟩
            exact notEscape _ rfl rfl
        have others := induction rfl same
        rw [List.cons_append, List.cons_append, List.cons_append] at others
        rw [List.singleton_append, List.cons_append, List.cons_append, List.cons_append,
          List.cons_append, ordinary, others]
        exact Prod.ext rfl (Nat.add_comm 1 _)

/-! ## Words -/

theorem takes_scanString : Takes scanString := by
  intro text valid
  fun_induction scanString text with
  | case2 => exact Nat.one_pos
  | case5 => exact Nat.add_pos_left Nat.two_pos _
  | case6 => exact Nat.add_pos_left Nat.one_pos _
  | _ => exact absurd rfl valid

theorem not_opens {word tail other : List Char} {kind : Kind}
    (notOpen : ∀ body, word ++ tail ≠ '"' :: '"' :: body)
    (scanned : scanString (word ++ tail) = (kind, word.length)) (valid : kind ≠ .invalid)
    (replaces : Replaces other tail) (body : List Char) :
    word ++ other ≠ '"' :: '"' :: body := by
  intro same
  cases word with
  | nil =>
      have positive := takes_scanString tail (by rwa [← List.nil_append tail, scanned])
      rw [← List.nil_append tail, scanned] at positive
      cases positive
  | cons first word =>
      obtain ⟨rfl, rest⟩ := List.cons.inj same
      have closed : (Kind.string, 1) = (kind, ('"' :: word).length) := scanned
      have length := congrArg Prod.snd closed
      rw [List.length_cons] at length
      obtain rfl := List.eq_nil_of_length_eq_zero (Nat.succ.inj length).symm
      have notQuote : tail.head? ≠ some '"' := by
        intro found
        obtain ⟨body, rfl⟩ := List.head?_eq_some_iff.mp found
        exact notOpen body rfl
      obtain rfl : other = '"' :: body := rest
      exact replaces.head?_ne notQuote (fun separates => separates.apart.2.2.1 rfl) rfl

def quoted (rest : List Char) : Kind × Nat :=
  match rest with
  | '"' :: '"' :: body => after 2 (scanBlockString body)
  | body => scanString body

theorem local_quoted : Local quoted := by
  intro word tail other kind scanned valid replaces
  unfold quoted at scanned ⊢
  split at scanned
  next body whole =>
    rcases exists_more ['"', '"'] whole scanned with ⟨more, rfl, rfl, same⟩
    have opened : after 2 (scanBlockString (more ++ other)) =
        (kind, (['"', '"'] ++ more).length) := by
      rw [local_scanBlockString same valid replaces, List.length_append]
      exact after_eq.mpr rfl
    exact opened
  next notOpen =>
    have stillNot := not_opens notOpen scanned valid replaces
    split
    next body whole => exact absurd whole (stillNot body)
    next => exact local_scanString scanned valid replaces

theorem local_spread : Local fun rest => match rest with
    | '.' :: '.' :: _ => (.spread, 2)
    | _ => (.invalid, 0) := by
  intro word tail other kind scanned valid replaces
  dsimp only at scanned ⊢
  split at scanned
  next body whole =>
    have spread : after 2 (.spread, 0) = (kind, word.length) := scanned
    rcases exists_more ['.', '.'] whole spread with ⟨more, rfl, _, none⟩
    exact scanned
  next => exact absurd (congrArg Prod.fst scanned).symm valid

theorem local_digits (first : Char) : Local fun rest =>
    ((scanUnsigned (first :: rest)).1, (scanUnsigned (first :: rest)).2 - 1) := by
  intro word tail other kind scanned valid replaces
  obtain ⟨rfl, length⟩ := Prod.mk.inj scanned
  have positive := takes_scanUnsigned _ valid
  have whole : scanUnsigned (first :: word ++ tail) =
      ((scanUnsigned (first :: (word ++ tail))).1, (first :: word).length) := by
    refine Prod.ext rfl ?_
    rw [List.length_cons, ← length]
    exact (Nat.sub_add_cancel positive).symm
  have others := local_scanUnsigned whole valid replaces
  rw [List.cons_append] at others
  dsimp only
  rw [others]
  rfl

theorem local_nameRest : Local fun rest => (.name, runLength isNamePart rest) := by
  intro word tail other kind scanned valid replaces
  obtain ⟨rfl, length⟩ := Prod.mk.inj scanned
  have same := runLength_replaced (fun _ separates => separates.apart.1) (Nat.le_of_eq length)
    replaces
  exact Prod.ext rfl (same.trans length)

theorem local_const (found : Kind × Nat) : Local fun _ => found :=
  fun _ _ _ _ scanned _ _ => scanned

theorem Local.ite {first second : List Char → Kind × Nat} (condition : Prop)
    [Decidable condition] (isLocal : Local first) (otherwise : Local second) :
    Local fun rest => if condition then first rest else second rest := by
  split
  · exact isLocal
  · exact otherwise

theorem local_scan (first : Char) : Local (scan first) := by
  unfold scan
  cases Kind.ofPunctuator? first with
  | some kind => exact local_const _
  | none =>
      exact local_spread.ite _ (local_quoted.ite _ (local_scanUnsigned.ite _
        ((local_digits first).ite _ (local_nameRest.ite _ (local_const _)))))

/-! ## The first tokens of a text -/

theorem Ignorable.congr {following other gap : List Char} (ignorable : Ignorable following gap)
    (same : other.head? = following.head?) : Ignorable other gap := by
  induction ignorable with
  | nil => exact .nil
  | blank isBlank more induction => exact .blank isBlank induction
  | @comment body rest oneLine stops more induction =>
      refine .comment oneLine ?_ induction
      intro next found
      apply stops next
      cases rest with
      | nil => rwa [List.nil_append, ← same]
      | cons first rest => exact found

theorem Ignorable.atEnd {following gap : List Char} (ignorable : Ignorable following gap) :
    Ignorable [] gap := by
  induction ignorable with
  | nil => exact .nil
  | blank isBlank more induction => exact .blank isBlank induction
  | @comment body rest oneLine stops more induction =>
      refine .comment oneLine ?_ induction
      intro next found
      apply stops next
      cases rest with
      | nil => cases found
      | cons first rest => exact found

/-- The first tokens of a text, none of which is invalid, are the first tokens of every text
that goes on in another way behind them. -/
theorem exists_used {before text : List Char} {words others : List Token}
    (split : tokensFrom (Cursor.after before text) = words ++ others) (more : others ≠ [])
    (valid : ∀ word ∈ words, word.kind ≠ .invalid) :
    ∃ used tail, text = used ++ tail ∧
      tokensFrom (Cursor.after (before ++ used) tail) = others ∧
      ∀ other, Replaces other tail →
        tokensFrom (Cursor.after before (used ++ other)) =
          words ++ tokensFrom (Cursor.after (before ++ used) other) := by
  induction words generalizing before text with
  | nil => exact ⟨[], text, rfl, by simpa using split, fun other _ => by simp⟩
  | cons token words induction =>
      rw [List.forall_mem_cons] at valid
      rcases exists_gap text with ⟨gap, rest, rfl, _, ignorable, begins⟩
      cases rest with
      | nil =>
          rw [List.append_nil, tokensFrom_of_ignorable before ignorable] at split
          have none : words ++ others = [] := (List.cons.inj split).2.symm
          exact absurd (List.append_eq_nil_iff.mp none).2 more
      | cons first rest =>
          rcases exists_scanned first rest with ⟨kind, word, rest, rfl, scanned⟩
          rw [tokensFrom_of_word before ignorable begins scanned] at split
          obtain ⟨rfl, splitRest⟩ := List.cons.inj split
          rcases induction splitRest valid.2 with ⟨used, tail, rfl, left, exchange⟩
          refine ⟨gap ++ first :: (word ++ used), tail, by simp, by simpa using left, ?_⟩
          intro other replaces
          have further : Replaces (used ++ other) (used ++ tail) := by
            cases used with
            | nil => exact replaces
            | cons next used => exact fun found same => .inl same
          have scannedOther := local_scan first scanned valid.1 further
          have spaced : Ignorable (first :: (word ++ (used ++ other))) gap := ignorable.congr rfl
          have rescanned := tokensFrom_of_word before spaced begins scannedOther
          rw [exchange other replaces] at rescanned
          simpa using rescanned

theorem tokenize_cut {text : List Char} {words others : List Token} {token : Token}
    (split : tokenize text = words ++ token :: others) (inside : token.kind ≠ .endOfInput)
    (valid : ∀ word ∈ words, word.kind ≠ .invalid) :
    ∃ front back, text = front ++ back ∧ byteCount front = token.span.start ∧
      endOf front = token.location ∧ tokenize front = words ++ [spanning .endOfInput front []] := by
  have whole : tokensFrom (Cursor.after [] text) = words ++ token :: others := split
  rcases exists_used whole nofun valid with ⟨used, tail, rfl, left, exchange⟩
  rcases exists_gap tail with ⟨gap, rest, rfl, _, ignorable, begins⟩
  have spaced : Replaces gap (gap ++ rest) := by
    cases gap with
    | nil => exact nofun
    | cons first gap => exact fun next found => .inl found
  have cut := exchange gap spaced
  rw [List.nil_append] at cut left
  rw [tokensFrom_of_ignorable used ignorable.atEnd] at cut
  refine ⟨used ++ gap, rest, by simp, ?_⟩
  cases rest with
  | nil =>
      rw [List.append_nil, tokensFrom_of_ignorable used ignorable.atEnd] at left
      rw [← (List.cons.inj left).1] at inside
      exact absurd rfl inside
  | cons first rest =>
      rcases exists_scanned first rest with ⟨kind, word, rest, rfl, scanned⟩
      rw [tokensFrom_of_word used ignorable begins scanned] at left
      rw [← (List.cons.inj left).1]
      exact ⟨rfl, rfl, cut⟩

/-! ## Texts that are made of given words -/

def fillers : List Lexeme :=
  [.name "a", .name "on", .mark .colon, .mark .dollar, .mark .atSign, .mark .braceOpen,
    .mark .braceClose, .mark .parenClose, .mark .bracketClose]

def spelling (word : Lexeme) : List Char := (word.text?.getD word.kind.symbol).toList

def spell (words : List Lexeme) : List Char := words.flatMap fun word => ' ' :: spelling word

theorem scan_spelling {word : Lexeme} (member : word ∈ fillers) : ∃ first rest,
    spelling word = first :: rest ∧ (first ∉ blanks ∧ first ≠ '#') ∧
      scan first rest = (word.kind, rest.length) ∧ word.kind ≠ .invalid ∧
      ∀ before, (spanning word.kind before (spelling word)).lexeme = word := by
  simp only [fillers, List.mem_cons, List.not_mem_nil, or_false] at member
  rcases member with rfl | rfl | rfl | rfl | rfl | rfl | rfl | rfl | rfl <;>
    exact ⟨_, _, rfl, by decide, by decide, nofun, fun _ => rfl⟩

theorem replaces_spell (words : List Lexeme) (tail : List Char) : Replaces (spell words) tail := by
  intro next found
  cases words with
  | nil => cases found
  | cons word words =>
      cases found
      exact .inr (by simp [Separates, blanks])

theorem tokensFrom_spell (before : List Char) {words : List Lexeme}
    (plain : ∀ word ∈ words, word ∈ fillers) : ∃ tokens last,
      tokensFrom (Cursor.after before (spell words)) = tokens ++ [last] ∧
        tokens.map lexeme = words := by
  induction words generalizing before with
  | nil => exact ⟨[], _, tokensFrom_of_ignorable before .nil, rfl⟩
  | cons word words induction =>
      rw [List.forall_mem_cons] at plain
      rcases scan_spelling plain.1 with ⟨first, rest, spelled, begins, scanned, valid, lexemeSame⟩
      have alone : scan first (rest ++ []) = (word.kind, rest.length) := by
        rwa [List.append_nil]
      have further := local_scan first alone valid (replaces_spell words [])
      have spaced : Ignorable (first :: (rest ++ spell words)) [' '] := .blank (by decide) .nil
      have begin : BeginsWord (first :: (rest ++ spell words)) := by
        rintro next ⟨⟩
        exact begins
      have covered := tokensFrom_of_word before spaced begin further
      rcases induction (before ++ [' '] ++ first :: rest) plain.2 with ⟨tokens, last, others, same⟩
      have written : spell (word :: words) = [' '] ++ first :: (rest ++ spell words) := by
        rw [spell, List.flatMap_cons, spelled]
        simp [spell]
      rw [others, ← written] at covered
      refine ⟨spanning word.kind (before ++ [' ']) (first :: rest) :: tokens, last, ?_, ?_⟩
      · rw [covered, List.cons_append]
      · rw [List.map_cons, ← spelled, lexemeSame, same]

/-- The first tokens of a text can be followed by any given words. -/
theorem exists_extended {text : List Char} {words others : List Token}
    (split : tokenize text = words ++ others) (more : others ≠ [])
    (valid : ∀ word ∈ words, word.kind ≠ .invalid) {filler : List Lexeme}
    (plain : ∀ word ∈ filler, word ∈ fillers) : ∃ other tokens last,
      tokenize other = words ++ (tokens ++ [last]) ∧ tokens.map lexeme = filler := by
  have whole : tokensFrom (Cursor.after [] text) = words ++ others := split
  rcases exists_used whole more valid with ⟨used, tail, _, _, exchange⟩
  rcases tokensFrom_spell used plain with ⟨tokens, last, spelled, same⟩
  have extended := exchange (spell filler) (replaces_spell filler tail)
  rw [List.nil_append, spelled] at extended
  exact ⟨used ++ spell filler, tokens, last, extended, same⟩

end GraphQuery.Token
