import GraphQuery.Proofs.Syntax.Rescanning

namespace GraphQuery.Token

/-! The lexical grammar: how each kind of word is spelled. The scanners take exactly the words
of the grammar, each of them as long as it can be. -/

/-! ## Numbers -/

structure DigitRun (text : List Char) : Prop where
  occupied : text ≠ []
  digits : ∀ character ∈ text, character.isDigit = true

/-- The part of a number before its point: no digit follows a leading zero. -/
inductive WholePart : List Char → Prop
  | zero : WholePart ['0']
  | digits {text : List Char} (run : DigitRun text) (leading : text.head? ≠ some '0') :
      WholePart text

inductive Exponent : List Char → Prop
  | plain {mark : Char} {digits : List Char} (isMark : mark ∈ ['e', 'E'])
      (run : DigitRun digits) : Exponent (mark :: digits)
  | signed {mark sign : Char} {digits : List Char} (isMark : mark ∈ ['e', 'E'])
      (isSign : sign ∈ ['+', '-']) (run : DigitRun digits) : Exponent (mark :: sign :: digits)

/-- What follows the whole part: nothing, or a fraction, an exponent or both. -/
inductive Remainder : Kind → List Char → Prop
  | none : Remainder .int []
  | exponent {power : List Char} (exponent : Exponent power) : Remainder .float power
  | fraction {digits power : List Char} (run : DigitRun digits)
      (exponent : power = [] ∨ Exponent power) : Remainder .float ('.' :: (digits ++ power))

inductive Unsigned : Kind → List Char → Prop
  | intro {kind : Kind} {whole rest : List Char} (isWhole : WholePart whole)
      (remains : Remainder kind rest) : Unsigned kind (whole ++ rest)

/-! ## Strings -/

/-- A string after its opening quote. A backslash takes any character with it. -/
inductive StringRest : List Char → Prop
  | close : StringRest ['"']
  | escape (taken : Char) {rest : List Char} (more : StringRest rest) :
      StringRest ('\\' :: taken :: rest)
  | ordinary {character : Char} {rest : List Char}
      (isOrdinary : character ∉ ['"', '\n', '\x0d', '\\']) (more : StringRest rest) :
      StringRest (character :: rest)

/-- A block string after its opening quotes. It is closed by the first three quotes that are
not escaped by a backslash before them. -/
inductive BlockStringRest : List Char → Prop
  | close : BlockStringRest ['"', '"', '"']
  | escape {rest : List Char} (more : BlockStringRest rest) :
      BlockStringRest ('\\' :: '"' :: '"' :: '"' :: rest)
  | ordinary {character : Char} {rest : List Char}
      (notClosed : ¬ ['"', '"', '"'] <+: character :: rest)
      (notEscape : ¬ ['\\', '"', '"', '"'] <+: character :: rest)
      (more : BlockStringRest rest) : BlockStringRest (character :: rest)

/-! ## Words -/

inductive Spelled : Kind → List Char → Prop
  | punctuator {kind : Kind} (isPunctuator : kind.isPunctuator = true) :
      Spelled kind kind.symbol.toList
  | name {first : Char} {rest : List Char} (start : isNameStart first = true)
      (parts : ∀ character ∈ rest, isNamePart character = true) : Spelled .name (first :: rest)
  | number {kind : Kind} {text : List Char} (unsigned : Unsigned kind text) : Spelled kind text
  | negative {kind : Kind} {text : List Char} (unsigned : Unsigned kind text) :
      Spelled kind ('-' :: text)
  | string {rest : List Char} (closes : StringRest rest) : Spelled .string ('"' :: rest)
  | blockString {rest : List Char} (closes : BlockStringRest rest) :
      Spelled .blockString ('"' :: '"' :: '"' :: rest)

/-! ## Scanners and forms -/

def Accepts (scanner : List Char → Kind × Nat) (form : Kind → List Char → Prop) : Prop :=
  ∀ ⦃kind : Kind⦄ ⦃text : List Char⦄, kind ≠ .invalid →
    (scanner text = (kind, text.length) ↔ form kind text)

def NoDigit (text : List Char) : Prop := ∀ next ∈ text.head?, next.isDigit = false

theorem runLength_eq {within : Char → Bool} {inside outside : List Char}
    (all : ∀ character ∈ inside, within character = true)
    (ends : ∀ next ∈ outside.head?, within next = false) :
    runLength within (inside ++ outside) = inside.length := by
  rw [runLength, List.takeWhile_append_of_pos all]
  cases outside with
  | nil => simp
  | cons next outside => simp [ends next rfl]

theorem exists_run (within : Char → Bool) (text : List Char) : ∃ inside outside,
    text = inside ++ outside ∧ runLength within text = inside.length ∧
      (∀ character ∈ inside, within character = true) ∧
      ∀ next ∈ outside.head?, within next = false := by
  refine ⟨text.takeWhile within, text.dropWhile within, List.takeWhile_append_dropWhile.symm,
    rfl, List.all_eq_true.mp List.all_takeWhile, ?_⟩
  intro next first
  have found := List.head?_dropWhile_not within text
  rw [Option.mem_def.mp first] at found
  simpa using found

theorem after_length (front : List Char) {rest : List Char} {scan : Kind × Nat} {kind : Kind} :
    after front.length scan = (kind, (front ++ rest).length) ↔ scan = (kind, rest.length) := by
  rw [List.length_append, after_eq]

theorem accepts_numberEnd (given : Kind) :
    Accepts (numberEnd given) fun kind text => kind = given ∧ text = [] := by
  intro kind text valid
  constructor
  · intro scanned
    rcases numberEnd_cases given text with fails | ⟨ends, _⟩
    · rw [fails] at scanned
      exact absurd (congrArg Prod.fst scanned).symm valid
    · rw [ends] at scanned
      rcases Prod.mk.inj scanned with ⟨rfl, length⟩
      exact ⟨rfl, List.eq_nil_of_length_eq_zero length.symm⟩
  · rintro ⟨rfl, rfl⟩
    rfl

theorem digitsThen_append {digits rest : List Char} (run : DigitRun digits)
    (ends : NoDigit rest) (next : List Char → Kind × Nat) :
    digitsThen next (digits ++ rest) = after digits.length (next rest) := by
  have positive := List.length_pos_iff.mpr run.occupied
  have some : ¬ digits.length = 0 := by omega
  simp only [digitsThen, runLength_eq run.digits ends, some, if_false, List.drop_left]

theorem exists_digits {next : List Char → Kind × Nat} {text : List Char}
    (valid : (digitsThen next text).1 ≠ .invalid) :
    ∃ digits rest, text = digits ++ rest ∧ DigitRun digits ∧ NoDigit rest := by
  rcases exists_run Char.isDigit text with ⟨digits, rest, rfl, length, all, ends⟩
  have occupied : digits ≠ [] := by
    intro none
    rw [none, List.length_nil, ← none] at length
    simp [digitsThen, length] at valid
  exact ⟨digits, rest, rfl, ⟨occupied, all⟩, ends⟩

theorem Accepts.digitsThen {next : List Char → Kind × Nat} {form : Kind → List Char → Prop}
    (accepts : Accepts next form) (apart : ∀ kind text, form kind text → NoDigit text) :
    Accepts (digitsThen next) fun kind text =>
      ∃ digits rest, text = digits ++ rest ∧ DigitRun digits ∧ form kind rest := by
  intro kind text valid
  constructor
  · intro scanned
    rcases exists_digits (by rwa [scanned]) with ⟨digits, rest, rfl, run, ends⟩
    rw [digitsThen_append run ends, after_length] at scanned
    exact ⟨digits, rest, rfl, run, (accepts valid).mp scanned⟩
  · rintro ⟨digits, rest, rfl, run, formed⟩
    rw [digitsThen_append run (apart kind rest formed), after_length]
    exact (accepts valid).mpr formed

theorem Accepts.branch {scanner next otherwise : List Char → Kind × Nat}
    {form other : Kind → List Char → Prop} {marks : Char → Bool} (acceptsNext : Accepts next form)
    (branches : Branches scanner marks next otherwise)
    (acceptsOtherwise : Accepts otherwise other) :
    Accepts scanner fun kind text =>
      (∃ mark rest, text = mark :: rest ∧ marks mark = true ∧ form kind rest) ∨
        (∀ first ∈ text.head?, marks first = false) ∧ other kind text := by
  intro kind text valid
  by_cases outside : ∀ first ∈ text.head?, marks first = false
  · rw [branches.unmarked text outside, acceptsOtherwise valid]
    constructor
    · exact fun formed => .inr ⟨outside, formed⟩
    · rintro (⟨mark, rest, rfl, isMark, _⟩ | ⟨_, formed⟩)
      · rw [outside mark rfl] at isMark
        cases isMark
      · exact formed
  · cases text with
    | nil => exact absurd nofun outside
    | cons mark rest =>
        have isMark : marks mark = true := by
          rw [← Bool.not_eq_false]
          intro unmarked
          apply outside
          rintro first ⟨⟩
          exact unmarked
        have whole : after 1 (next rest) = (kind, (mark :: rest).length) ↔
            next rest = (kind, rest.length) := after_length [mark]
        rw [branches.marked mark rest isMark, whole, acceptsNext valid]
        constructor
        · exact fun formed => .inl ⟨mark, rest, rfl, isMark, formed⟩
        · rintro (⟨_, _, ⟨⟩, _, formed⟩ | ⟨unmarked, _⟩)
          · exact formed
          · exact absurd unmarked outside

theorem Accepts.congr {scanner : List Char → Kind × Nat} {form other : Kind → List Char → Prop}
    (accepts : Accepts scanner form) (same : ∀ kind text, form kind text ↔ other kind text) :
    Accepts scanner other := fun kind text valid => (accepts valid).trans (same kind text)

theorem DigitRun.exists_first {digits : List Char} (run : DigitRun digits) :
    ∃ first rest, digits = first :: rest ∧ first.isDigit = true := by
  rcases List.exists_cons_of_ne_nil run.occupied with ⟨first, rest, rfl⟩
  exact ⟨first, rest, rfl, run.digits first List.mem_cons_self⟩

theorem DigitRun.unmarked {digits : List Char} (run : DigitRun digits) (marks : Char → Bool)
    (apart : ∀ mark, marks mark = true → mark.isDigit = false) (rest : List Char) :
    ∀ first ∈ (digits ++ rest).head?, marks first = false := by
  rcases run.exists_first with ⟨digit, others, rfl, isDigit⟩
  rintro first ⟨⟩
  rw [← Bool.not_eq_true]
  intro isMark
  rw [apart digit isMark] at isDigit
  cases isDigit

theorem accepts_plainDigits :
    Accepts (digitsThen (numberEnd .float)) fun kind text => kind = .float ∧ DigitRun text := by
  apply ((accepts_numberEnd .float).digitsThen (by rintro _ _ ⟨_, rfl⟩; exact nofun)).congr
  intro kind text
  constructor
  · rintro ⟨digits, rest, rfl, run, rfl, rfl⟩
    exact ⟨rfl, by rwa [List.append_nil]⟩
  · rintro ⟨rfl, run⟩
    exact ⟨text, [], (List.append_nil text).symm, run, rfl, rfl⟩

theorem accepts_scanExponent (given : Kind) : Accepts (scanExponent given) fun kind text =>
    (kind = given ∧ text = []) ∨ (kind = .float ∧ Exponent text) := by
  have signed := accepts_plainDigits.branch (branches_signThen _) accepts_plainDigits
  apply (signed.branch (branches_scanExponent given) (accepts_numberEnd given)).congr
  intro kind text
  constructor
  · rintro (⟨mark, rest, rfl, isMark, formed⟩ | ⟨_, rfl, rfl⟩)
    · have either : mark ∈ ['e', 'E'] := by simpa using isMark
      rcases formed with ⟨sign, digits, rfl, isSign, rfl, run⟩ | ⟨_, rfl, run⟩
      · exact .inr ⟨rfl, .signed either (by simpa using isSign) run⟩
      · exact .inr ⟨rfl, .plain either run⟩
    · exact .inl ⟨rfl, rfl⟩
  · rintro (⟨rfl, rfl⟩ | ⟨rfl, power⟩)
    · exact .inr ⟨nofun, rfl, rfl⟩
    · cases power with
      | @plain mark digits isMark run =>
          have noSign := run.unmarked (fun first => first == '+' || first == '-')
            (by simp [Char.isDigit]) []
          rw [List.append_nil] at noSign
          exact .inl ⟨mark, digits, rfl, by simpa using isMark, .inr ⟨noSign, rfl, run⟩⟩
      | @signed mark sign digits isMark isSign run =>
          exact .inl ⟨mark, sign :: digits, rfl, by simpa using isMark,
            .inl ⟨sign, digits, rfl, by simpa using isSign, rfl, run⟩⟩

theorem Exponent.head? {power : List Char} (exponent : Exponent power) :
    ∀ first ∈ power.head?, first ∈ ['e', 'E'] := by
  cases exponent with
  | plain isMark => rintro first ⟨⟩; exact isMark
  | signed isMark => rintro first ⟨⟩; exact isMark

theorem noDigit_of_head? {text marks : List Char} (within : ∀ first ∈ text.head?, first ∈ marks)
    (apart : ∀ mark ∈ marks, mark.isDigit = false) : NoDigit text :=
  fun first found => apart first (within first found)

theorem Exponent.noDigit {power : List Char} (exponent : Exponent power) : NoDigit power :=
  noDigit_of_head? exponent.head? (by simp)

theorem Remainder.noDigit {kind : Kind} {rest : List Char} (remains : Remainder kind rest) :
    NoDigit rest := by
  cases remains with
  | none => exact nofun
  | exponent power => exact power.noDigit
  | fraction run power => rintro first ⟨⟩; rfl

theorem accepts_scanFraction : Accepts scanFraction Remainder := by
  have digits := (accepts_scanExponent .float).digitsThen (by
    rintro kind text (⟨_, rfl⟩ | ⟨_, power⟩)
    · exact nofun
    · exact power.noDigit)
  apply (digits.branch branches_scanFraction (accepts_scanExponent .int)).congr
  intro kind text
  constructor
  · rintro (⟨mark, rest, rfl, isMark, digits, power, rfl, run, either⟩ | ⟨_, either⟩)
    · obtain rfl := beq_iff_eq.mp isMark
      rcases either with ⟨rfl, none⟩ | ⟨rfl, exponent⟩
      · exact .fraction run (.inl none)
      · exact .fraction run (.inr exponent)
    · rcases either with ⟨rfl, rfl⟩ | ⟨rfl, exponent⟩
      · exact .none
      · exact .exponent exponent
  · intro remains
    cases remains with
    | none => exact .inr ⟨nofun, .inl ⟨rfl, rfl⟩⟩
    | exponent power =>
        have noPoint : ∀ first ∈ text.head?, (first == '.') = false := by
          intro first found
          have isMark := power.head? first found
          rw [beq_eq_false_iff_ne]
          rintro rfl
          exact absurd isMark (by decide)
        exact .inr ⟨noPoint, .inr ⟨rfl, power⟩⟩
    | @fraction digits power run either =>
        refine .inl ⟨'.', _, rfl, rfl, digits, power, rfl, run, ?_⟩
        exact either.imp (⟨rfl, ·⟩) (⟨rfl, ·⟩)

theorem accepts_afterZero : Accepts afterZero Remainder := by
  intro kind text valid
  constructor
  · intro scanned
    rw [afterZero_eq (noDigit_of_afterZero (by rwa [scanned]))] at scanned
    exact (accepts_scanFraction valid).mp scanned
  · intro remains
    rw [afterZero_eq remains.noDigit]
    exact (accepts_scanFraction valid).mpr remains

theorem accepts_scanUnsigned : Accepts scanUnsigned Unsigned := by
  have digits := accepts_scanFraction.digitsThen fun _ _ remains => remains.noDigit
  apply (accepts_afterZero.branch branches_scanUnsigned digits).congr
  intro kind text
  constructor
  · rintro (⟨mark, rest, rfl, isMark, remains⟩ | ⟨notZero, digits, rest, rfl, run, remains⟩)
    · obtain rfl := beq_iff_eq.mp isMark
      exact .intro .zero remains
    · refine .intro (.digits run ?_) remains
      rcases run.exists_first with ⟨digit, others, rfl, _⟩
      simpa using notZero digit rfl
  · intro unsigned
    cases unsigned with
    | @intro whole rest isWhole remains =>
        cases isWhole with
        | zero => exact .inl ⟨'0', rest, rfl, rfl, remains⟩
        | digits run leading =>
            refine .inr ⟨?_, whole, rest, rfl, run, remains⟩
            rcases run.exists_first with ⟨digit, others, rfl, _⟩
            rintro first ⟨⟩
            simpa using leading

/-! ## What scanners take: strings -/

theorem accepts_scanString : Accepts scanString fun kind text =>
    kind = .string ∧ StringRest text := by
  intro kind text valid
  constructor
  · intro scanned
    fun_induction scanString text with
    | case2 rest =>
        rcases Prod.mk.inj scanned with ⟨rfl, length⟩
        obtain rfl := List.eq_nil_of_length_eq_zero (Nat.succ.inj length).symm
        exact ⟨rfl, .close⟩
    | case5 taken rest induction =>
        rcases induction ((after_length ['\\', taken]).mp scanned) with ⟨rfl, more⟩
        exact ⟨rfl, .escape taken more⟩
    | case6 first rest notQuote notLine notReturn notEscape induction =>
        have same := (after_length [first]).mp scanned
        rcases induction same with ⟨rfl, more⟩
        refine ⟨rfl, .ordinary ?_ more⟩
        simp only [List.mem_cons, not_or, List.not_mem_nil, not_false_eq_true, and_true]
        refine ⟨notQuote, notLine, notReturn, ?_⟩
        rintro rfl
        cases more with
        | close => exact notEscape _ _ rfl rfl
        | escape => exact notEscape _ _ rfl rfl
        | ordinary => exact notEscape _ _ rfl rfl
    | _ => exact absurd (congrArg Prod.fst scanned).symm valid
  · rintro ⟨rfl, closes⟩
    induction closes with
    | close => rfl
    | @escape taken rest more induction =>
        rw [scanString]
        exact (after_length ['\\', taken]).mpr induction
    | @ordinary character rest isOrdinary more induction =>
        rw [scanString_ordinary isOrdinary]
        exact (after_length [character]).mpr induction

theorem accepts_scanBlockString : Accepts scanBlockString fun kind text =>
    kind = .blockString ∧ BlockStringRest text := by
  intro kind text valid
  constructor
  · intro scanned
    fun_induction scanBlockString text with
    | case1 => exact absurd (congrArg Prod.fst scanned).symm valid
    | case2 rest =>
        have whole : after 3 (.blockString, 0) = (kind, (['"', '"', '"'] ++ rest).length) := scanned
        rcases Prod.mk.inj (after_length ['"', '"', '"'] |>.mp whole) with ⟨rfl, length⟩
        obtain rfl := List.eq_nil_of_length_eq_zero length.symm
        exact ⟨rfl, .close⟩
    | case3 rest induction =>
        have same := (after_length ['\\', '"', '"', '"']).mp scanned
        rcases induction same with ⟨rfl, more⟩
        exact ⟨rfl, .escape more⟩
    | case4 first rest notClosed notEscape induction =>
        rcases induction ((after_length [first]).mp scanned) with ⟨rfl, more⟩
        refine ⟨rfl, .ordinary ?_ ?_ more⟩
        · rintro ⟨others, same⟩
          cases same
          exact notClosed others rfl rfl
        · rintro ⟨others, same⟩
          cases same
          exact notEscape others rfl rfl
  · rintro ⟨rfl, closes⟩
    induction closes with
    | close => rfl
    | @escape rest more induction =>
        rw [scanBlockString]
        exact (after_length ['\\', '"', '"', '"']).mpr induction
    | @ordinary character rest notClosed notEscape more induction =>
        rw [scanBlockString]
        · exact (after_length [character]).mpr induction
        · rintro others rfl rfl
          exact notClosed ⟨others, rfl⟩
        · rintro others rfl rfl
          exact notEscape ⟨others, rfl⟩

/-! ## Whole words -/

theorem spelled_of_ofPunctuator? {first : Char} {kind : Kind}
    (found : Kind.ofPunctuator? first = some kind) : Spelled kind [first] := by
  unfold Kind.ofPunctuator? at found
  split at found <;> cases found <;> exact .punctuator rfl

theorem isNamePart_apart {first : Char} (part : isNamePart first = true) :
    Kind.ofPunctuator? first = none ∧ first ≠ '.' ∧ first ≠ '"' ∧ first ≠ '-' := by
  refine ⟨?_, ?_, ?_, ?_⟩
  · unfold Kind.ofPunctuator?
    split <;> first | rfl | cases part
  all_goals rintro rfl; cases part

theorem scan_digit {first : Char} (digit : first.isDigit = true) {rest : List Char} {kind : Kind}
    {count : Nat} (valid : kind ≠ .invalid) :
    scan first rest = (kind, count) ↔ scanUnsigned (first :: rest) = (kind, count + 1) := by
  rcases isNamePart_apart (isNamePart_of_isDigit digit) with ⟨noMark, noPoint, noQuote, noSign⟩
  have positive := takes_scanUnsigned (first :: rest)
  rcases found : scanUnsigned (first :: rest) with ⟨kind', total⟩
  rw [found] at positive
  simp only [scan, noMark, noPoint, noQuote, noSign, digit, found, beq_iff_eq, if_false, if_true,
    Prod.mk.injEq]
  constructor
  · rintro ⟨rfl, rfl⟩
    exact ⟨rfl, (Nat.sub_add_cancel (positive valid)).symm⟩
  · rintro ⟨rfl, rfl⟩
    exact ⟨rfl, rfl⟩

theorem isNamePart_of_isNameStart {first : Char} (start : isNameStart first = true) :
    isNamePart first = true := by
  simp only [isNameStart, isNamePart, Char.isAlphanum, Bool.or_eq_true] at start ⊢
  exact start.imp .inl id

theorem not_isDigit_of_isNameStart {first : Char} (start : isNameStart first = true) :
    first.isDigit = false := by
  have digit : first.isDigit = (decide (first.val ≥ '0'.val) && decide (first.val ≤ '9'.val)) :=
    rfl
  rcases (Bool.or_eq_true _ _).mp start with letter | underscore
  · rcases (Bool.or_eq_true _ _).mp letter with upper | lower
    · have range : first.val ≥ 'A'.val ∧ first.val ≤ 'Z'.val := of_decide_eq_true upper
      grind
    · have range := (Bool.and_eq_true _ _).mp lower
      grind
  · obtain rfl := beq_iff_eq.mp underscore
    rfl

theorem scan_nameStart {first : Char} (start : isNameStart first = true) (rest : List Char) :
    scan first rest = (.name, runLength isNamePart rest) := by
  rcases isNamePart_apart (isNamePart_of_isNameStart start) with ⟨noMark, noPoint, noQuote, noSign⟩
  simp [scan, noMark, noPoint, noQuote, noSign, not_isDigit_of_isNameStart start, start]

theorem Unsigned.exists_first {kind : Kind} {text : List Char} (unsigned : Unsigned kind text) :
    ∃ first rest, text = first :: rest ∧ first.isDigit = true := by
  cases unsigned with
  | @intro whole rest isWhole remains =>
      cases isWhole with
      | zero => exact ⟨'0', rest, rfl, rfl⟩
      | digits run =>
          rcases run.exists_first with ⟨first, others, rfl, digit⟩
          exact ⟨first, others ++ rest, rfl, digit⟩

theorem scan_quote {rest : List Char} (notOpen : ∀ body, rest ≠ '"' :: '"' :: body) :
    scan '"' rest = scanString rest := by
  have same : scan '"' rest = quoted rest := rfl
  rw [same, quoted]
  exact notOpen

theorem StringRest.not_open {rest : List Char} (closes : StringRest rest) (body : List Char) :
    rest ≠ '"' :: '"' :: body := by
  rintro rfl
  cases closes with
  | ordinary isOrdinary => exact absurd isOrdinary (by decide)

theorem Unsigned.int_or_float {kind : Kind} {text : List Char} (unsigned : Unsigned kind text) :
    kind = .int ∨ kind = .float := by
  cases unsigned with
  | intro _ remains =>
      cases remains with
      | none => exact .inl rfl
      | exponent | fraction => exact .inr rfl

theorem Unsigned.valid {kind : Kind} {text : List Char} (unsigned : Unsigned kind text) :
    kind ≠ .invalid := by
  rcases unsigned.int_or_float with rfl | rfl <;> nofun

theorem spelled_of_scan {first : Char} {rest : List Char} {kind : Kind}
    (scanned : scan first rest = (kind, rest.length)) (valid : kind ≠ .invalid) :
    Spelled kind (first :: rest) := by
  have whole := scanned
  unfold scan at scanned
  split at scanned
  next found =>
    rcases Prod.mk.inj scanned with ⟨rfl, length⟩
    obtain rfl := List.eq_nil_of_length_eq_zero length.symm
    exact spelled_of_ofPunctuator? found
  split at scanned
  next point =>
    obtain rfl := beq_iff_eq.mp point
    split at scanned
    next others =>
      rcases Prod.mk.inj scanned with ⟨rfl, length⟩
      obtain rfl : others = [] := by simpa using length
      exact .punctuator rfl
    · exact absurd (congrArg Prod.fst scanned).symm valid
  split at scanned
  next quote =>
    obtain rfl := beq_iff_eq.mp quote
    split at scanned
    next body =>
      have inside := (after_length ['"', '"']).mp scanned
      rcases (accepts_scanBlockString valid).mp inside with ⟨rfl, closes⟩
      exact .blockString closes
    next =>
      rcases (accepts_scanString valid).mp scanned with ⟨rfl, closes⟩
      exact .string closes
  split at scanned
  next minus =>
    obtain rfl := beq_iff_eq.mp minus
    exact .negative ((accepts_scanUnsigned valid).mp scanned)
  split at scanned
  next digit =>
    exact .number ((accepts_scanUnsigned valid).mp ((scan_digit digit valid).mp whole))
  split at scanned
  next start =>
    rcases Prod.mk.inj scanned with ⟨rfl, length⟩
    refine .name start ?_
    have whole : rest.takeWhile isNamePart = rest :=
      (List.takeWhile_prefix isNamePart).eq_of_length length
    rw [← whole]
    exact List.all_eq_true.mp List.all_takeWhile
  · exact absurd (congrArg Prod.fst scanned).symm valid
theorem scan_of_spelled {first : Char} {rest : List Char} {kind : Kind}
    (spelled : Spelled kind (first :: rest)) : scan first rest = (kind, rest.length) := by
  generalize whole : first :: rest = text at spelled
  cases spelled with
  | punctuator isPunctuator =>
      cases kind <;> cases isPunctuator <;> cases whole <;> rfl
  | name start parts =>
      cases whole
      have length : runLength isNamePart (rest ++ []) = rest.length := runLength_eq parts nofun
      rw [List.append_nil] at length
      rw [scan_nameStart start, length]
  | number unsigned =>
      rcases unsigned.exists_first with ⟨digit, others, rfl, isDigit⟩
      cases whole
      have valid := unsigned.valid
      exact (scan_digit isDigit valid).mpr ((accepts_scanUnsigned valid).mpr unsigned)
  | negative unsigned =>
      cases whole
      exact (accepts_scanUnsigned unsigned.valid).mpr unsigned
  | string closes =>
      cases whole
      rw [scan_quote closes.not_open]
      have valid : Kind.string ≠ .invalid := nofun
      exact (accepts_scanString valid).mpr ⟨rfl, closes⟩
  | blockString closes =>
      cases whole
      have valid : Kind.blockString ≠ .invalid := nofun
      have inside := (accepts_scanBlockString valid).mpr ⟨rfl, closes⟩
      exact (after_length ['"', '"']).mpr inside

end GraphQuery.Token
