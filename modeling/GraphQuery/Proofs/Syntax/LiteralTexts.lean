import GraphQuery.Proofs.Syntax.Composition
import GraphQuery.Proofs.Syntax.Escapes
import GraphQuery.Proofs.Syntax.Respelling

namespace GraphQuery

/-! The texts of literals. Without floats, and without code points in braces, the text of a
literal is made of words that write that literal. -/

open Token

/-! ## Integers -/

namespace Digits

theorem toNat_eq (digits : List Char) : toNat digits = Nat.ofDigitChars 10 digits 0 := by
  rw [toNat, append, Nat.ofDigitChars]
  simp only [value, Nat.mul_comm]

theorem toNat_toDigits (number : Nat) : toNat (Nat.toDigits 10 number) = number := by
  rw [toNat_eq, Nat.ofDigitChars_ten_toDigits]

theorem head?_toDigits {number : Nat} (positive : 0 < number) :
    (Nat.toDigits 10 number).head? ≠ some '0' := by
  induction number using Nat.strongRecOn with
  | ind number induction =>
      rcases Nat.lt_or_ge number 10 with small | large
      · rw [Nat.toDigits_of_lt_base small]
        interval_cases number <;> decide
      · rw [Nat.toDigits_of_base_le (by decide) large,
          List.head?_append_of_ne_nil _ Nat.toDigits_ne_nil]
        exact induction _ (by omega) (by omega)

theorem wholePart_toDigits (number : Nat) : WholePart (Nat.toDigits 10 number) := by
  rcases Nat.eq_zero_or_pos number with rfl | positive
  · exact .zero
  · refine .digits ⟨Nat.toDigits_ne_nil, fun character member => ?_⟩ (head?_toDigits positive)
    exact Nat.isDigit_of_mem_toDigits (by decide) (by decide) member

theorem unsigned_toDigits (number : Nat) : Unsigned .int (Nat.toDigits 10 number) := by
  have whole := Unsigned.intro (wholePart_toDigits number) .none
  rwa [List.append_nil] at whole

end Digits

theorem toList_toString_ofNat (number : Nat) :
    (toString (Int.ofNat number)).toList = Nat.toDigits 10 number := String.toList_ofList

theorem toList_toString_negSucc (number : Nat) :
    (toString (Int.negSucc number)).toList = '-' :: Nat.toDigits 10 (number + 1) := by
  change ("-" ++ String.ofList (Nat.toDigits 10 (number + 1))).toList = _
  simp

theorem spelled_toString (value : Int) : Spelled .int (toString value).toList := by
  cases value with
  | ofNat number =>
      rw [toList_toString_ofNat]
      exact .number (Digits.unsigned_toDigits number)
  | negSucc number =>
      rw [toList_toString_negSucc]
      exact .negative (Digits.unsigned_toDigits (number + 1))

theorem intOfText_toString (value : Int) : Parser.intOfText (toString value).toList = value := by
  cases value with
  | ofNat number =>
      rw [toList_toString_ofNat, Parser.intOfText]
      · rw [Digits.toNat_toDigits]
        rfl
      · intro digits same
        have member : '-' ∈ Nat.toDigits 10 number := same ▸ List.mem_cons_self
        cases Nat.isDigit_of_mem_toDigits (by decide) (by decide) member
  | negSucc number =>
      rw [toList_toString_negSucc, Parser.intOfText, Digits.toNat_toDigits]
      rfl

/-! ## Quoted strings -/

namespace Text

/-- In quotes a character is either as it is, or a letter after a backslash that stands for the
same character in a document. -/
def QuotedPlainly (character : Char) : Prop :=
  quoteCharacter character = [character] ∨ quoteCharacter character ∈
    [['\\', '"'], ['\\', '\\'], ['\\', 'n'], ['\\', 'r'], ['\\', 't']]

instance : DecidablePred QuotedPlainly := fun _ => inferInstanceAs (Decidable (_ ∨ _))

theorem QuotedPlainly.cases {character : Char} (plainly : QuotedPlainly character) :
    (quoteCharacter character = [character] ∧ character ∉ ['"', '\n', '\x0d', '\\']) ∨
      ∃ letter, quoteCharacter character = ['\\', letter] ∧
        (letter, character) ∈ StringLiteral.letters := by
  rcases plainly with same | listed
  · refine .inl ⟨same, fun member => ?_⟩
    simp only [List.mem_cons, List.not_mem_nil, or_false] at member
    rcases member with rfl | rfl | rfl | rfl <;> exact absurd same (by decide)
  · refine .inr ?_
    unfold quoteCharacter at listed ⊢
    split at listed
    case h_7 =>
      split at listed
      · simp at listed
      · simp at listed
    case h_6 => simp at listed
    all_goals exact ⟨_, rfl, by decide⟩

theorem spells_quoteBody {text : List Char}
    (plainly : ∀ character ∈ text, QuotedPlainly character) :
    StringLiteral.Spells false (quoteBody text) text := by
  induction text with
  | nil => exact .nil
  | cons character text induction =>
      rw [List.forall_mem_cons] at plainly
      have later := induction plainly.2
      have denotes : StringLiteral.Denotes false (quoteCharacter character) character := by
        rcases plainly.1.cases with ⟨same, ordinary⟩ | ⟨letter, same, listed⟩
        · rw [same]
          exact .plain fun escape => ordinary (by simp [escape])
        · rw [same]
          exact .letter listed
      exact .cons denotes later

theorem stringRest_quoteBody {text : List Char}
    (plainly : ∀ character ∈ text, QuotedPlainly character) :
    StringRest (quoteBody text ++ ['"']) := by
  induction text with
  | nil => exact .close
  | cons character text induction =>
      rw [List.forall_mem_cons] at plainly
      have later := induction plainly.2
      rw [quoteBody, List.flatMap_cons, List.append_assoc]
      rcases plainly.1.cases with ⟨same, ordinary⟩ | ⟨letter, same, _⟩
      · rw [same]
        exact .ordinary ordinary later
      · rw [same]
        exact .escape letter later

variable {value : String}

theorem spelled_quote (plainly : ∀ character ∈ value.toList, QuotedPlainly character) :
    Spelled .string (quote value).toList := by
  rw [quote, String.toList_ofList]
  exact .string (stringRest_quoteBody plainly)

theorem between_quote (value : String) :
    Parser.between 1 (quote value) = quoteBody value.toList := by
  rw [Parser.between, quote, String.toList_ofList]
  simp

theorem unescape_quote (plainly : ∀ character ∈ value.toList, QuotedPlainly character) :
    StringLiteral.unescape (Parser.between 1 (quote value)) = some value.toList := by
  rw [between_quote]
  exact StringLiteral.unescape_of_spells (spells_quoteBody plainly).allow

end Text

/-! ## The words of a literal -/

namespace Literal

mutual
def words : Literal → List Lexeme
  | .reference name => [.mark .dollar, .name name.text]
  | .int value => [.int (toString value)]
  | .float value => [.float (numberLayout.render value)]
  | .string value => [.string (Text.quote value)]
  | .boolean value => [.name (if value then "true" else "false")]
  | .null => [.name "null"]
  | .symbol name => [.name name]
  | .list items => Lexeme.brackets (wordsOfItems items)
  | .object fields => Lexeme.braces (wordsOfFields fields)

def wordsOfItems : List Literal → List Lexeme
  | [] => []
  | item :: rest => words item ++ wordsOfItems rest

def wordsOfFields : List (Name × Literal) → List Lexeme
  | [] => []
  | (name, value) :: rest => .name name.text :: .mark .colon :: (words value ++ wordsOfFields rest)
end

def lastKind : Literal → Kind
  | .reference _ | .boolean _ | .null | .symbol _ => .name
  | .int _ => .int
  | .float _ => .float
  | .string _ => .string
  | .list _ => .bracketClose
  | .object _ => .braceClose

/-- Without floats, and without characters that are not quoted plainly. -/
inductive Printable : Literal → Prop
  | reference (name : Name) : Printable (.reference name)
  | int (value : Int) : Printable (.int value)
  | string {value : String} (plainly : ∀ character ∈ value.toList, Text.QuotedPlainly character) :
      Printable (.string value)
  | boolean (value : Bool) : Printable (.boolean value)
  | null : Printable .null
  | symbol (name : String) : Printable (.symbol name)
  | list {items : List Literal} (each : ∀ item ∈ items, Printable item) : Printable (.list items)
  | object {fields : List (Name × Literal)} (each : ∀ field ∈ fields, Printable field.2) :
      Printable (.object fields)

/-- A literal whose text can be read: its names are names, of which those that are symbols mean
nothing else, and its integers are within their bounds. -/
inductive Legible : Literal → Prop
  | reference {name : Name} (isName : Spelled .name name.text.toList) : Legible (.reference name)
  | int {value : Int} (within : Word.int64.Fits value) : Legible (.int value)
  | string {value : String} (plainly : ∀ character ∈ value.toList, Text.QuotedPlainly character) :
      Legible (.string value)
  | boolean (value : Bool) : Legible (.boolean value)
  | null : Legible .null
  | symbol {name : String} (isName : Spelled .name name.toList)
      (other : name ≠ "true" ∧ name ≠ "false" ∧ name ≠ "null") : Legible (.symbol name)
  | list {items : List Literal} (each : ∀ item ∈ items, Legible item) : Legible (.list items)
  | object {fields : List (Name × Literal)}
      (named : ∀ field ∈ fields, Spelled .name field.1.text.toList)
      (each : ∀ field ∈ fields, Legible field.2) : Legible (.object fields)

/-! ## Reading what has been written -/

theorem wordsOfItems_eq (items : List Literal) : wordsOfItems items = items.flatMap words := by
  induction items with
  | nil => rfl
  | cons item rest induction => rw [wordsOfItems, induction, List.flatMap_cons]

def fieldWords (field : Name × Literal) : List Lexeme :=
  .name field.1.text :: .mark .colon :: field.2.words

theorem wordsOfFields_eq (fields : List (Name × Literal)) :
    wordsOfFields fields = fields.flatMap fieldWords := by
  induction fields with
  | nil => rfl
  | cons field rest induction =>
      rcases field with ⟨name, value⟩
      rw [wordsOfFields, induction, List.flatMap_cons]
      rfl

end Literal

theorem Part.Written.flatMap {α : Type} {parts : α → List Part} {words : α → List Lexeme}
    {items : List α} (each : ∀ item ∈ items, Part.Written (parts item) (words item)) :
    Part.Written (items.flatMap parts) (items.flatMap words) := by
  induction items with
  | nil => exact .nil
  | cons item rest induction =>
      rw [List.forall_mem_cons] at each
      rw [List.flatMap_cons, List.flatMap_cons]
      exact each.1.append (induction each.2)

theorem Part.Written.enclose {opening closing : Kind} {parts : List Part} {words : List Lexeme}
    (inside : Part.Written parts words) :
    Part.Written (Part.enclosed opening closing parts)
      (.mark opening :: (words ++ [.mark closing])) :=
  .word _ (inside.append (.word _ .nil))

theorem Part.Written.of_mem_flatMap {α : Type} {parts : α → List Part} {items : List α}
    {words : List Lexeme} (whole : Part.Written (items.flatMap parts) words) :
    ∀ item ∈ items, ∃ inner, inner ⊆ words ∧ Part.Written (parts item) inner := by
  induction items generalizing words with
  | nil => exact nofun
  | cons item items induction =>
      rw [List.flatMap_cons] at whole
      rcases whole.split with ⟨first, second, rfl, front, back⟩
      refine List.forall_mem_cons.mpr ⟨⟨first, List.subset_append_left _ _, front⟩, ?_⟩
      intro other member
      rcases induction back other member with ⟨inner, inside, pieces⟩
      exact ⟨inner, List.subset_append_of_subset_right _ inside, pieces⟩

namespace Literal

variable {value : Literal}

theorem Printable.legible (printable : value.Printable) {words : List Lexeme}
    (pieces : Part.Written value.parts words)
    (named : ∀ label, .name label ∈ words → Spelled .name label.toList)
    (readable : ∀ word ∈ words, word.Readable) : value.Legible := by
  induction printable generalizing words with
  | reference name =>
      rcases Part.Written.mark_cons pieces with ⟨rest, rfl, marked⟩
      rcases marked.name_cons with ⟨rest, rfl, _⟩
      exact .reference (named name.text (by simp))
  | int value =>
      rcases Part.Written.atom_alone pieces with ⟨lexeme, rfl, written⟩
      cases written with
      | int text => exact .int (readable (.int text) List.mem_cons_self)
  | string plainly => exact .string plainly
  | boolean value => exact .boolean value
  | null => exact .null
  | symbol name =>
      rcases Part.Written.atom_alone pieces with ⟨lexeme, rfl, written⟩
      cases written with
      | symbol label other => exact .symbol (named name List.mem_cons_self) other
  | list each induction =>
      rcases Part.Written.enclosed pieces with ⟨inner, rfl, inside⟩
      rw [partsOfItems_eq] at inside
      refine .list fun item member => ?_
      rcases inside.of_mem_flatMap item member with ⟨words, among, written⟩
      have further : words ⊆ .mark .bracketOpen :: (inner ++ [.mark .bracketClose]) :=
        fun word found => List.mem_cons_of_mem _ (List.mem_append_left _ (among found))
      exact induction item member written (fun label found => named label (further found))
        (fun word found => readable word (further found))
  | @object fields each induction =>
      rcases Part.Written.enclosed pieces with ⟨inner, rfl, inside⟩
      rw [partsOfFields_eq] at inside
      have within : ∀ field ∈ fields, ∃ words,
          (.name field.1.text :: .mark .colon :: words) ⊆ inner ∧
            Part.Written field.2.parts words := by
        intro field member
        rcases inside.of_mem_flatMap field member with ⟨words, among, written⟩
        rcases written.name_cons with ⟨rest, rfl, keyed⟩
        rcases keyed.mark_cons with ⟨rest, rfl, held⟩
        exact ⟨rest, among, held⟩
      have further : inner ⊆ .mark .braceOpen :: (inner ++ [.mark .braceClose]) :=
        fun word found => List.mem_cons_of_mem _ (List.mem_append_left _ found)
      refine .object (fun field member => ?_) fun field member => ?_
      · rcases within field member with ⟨words, among, _⟩
        exact named _ (further (among List.mem_cons_self))
      · rcases within field member with ⟨words, among, written⟩
        have later (word : Lexeme) (found : word ∈ words) :=
          further (among (List.mem_cons_of_mem _ (List.mem_cons_of_mem _ found)))
        exact induction field member written (fun label found => named label (later _ found))
          (fun word found => readable word (later word found))

theorem Legible.written (legible : value.Legible) : Part.Written value.parts value.words := by
  induction legible with
  | @reference name isName => exact .word _ (.name name .nil)
  | @int value within =>
      have written := @Literal.Written.int true (toString value)
      rw [intOfText_toString] at written
      exact .atom written .nil
  | @string value plainly =>
      have written := @Literal.Written.string true (Text.quote value)
      rw [stringOfText, Text.unescape_quote plainly, Option.getD_some,
        String.ofList_toList] at written
      exact .atom written .nil
  | boolean value =>
      cases value
      · exact .atom .false .nil
      · exact .atom .true .nil
  | null => exact .atom .null .nil
  | symbol isName other => exact .atom (.symbol _ other) .nil
  | @list items each induction =>
      rw [parts, words, partsOfItems_eq, wordsOfItems_eq]
      exact .enclose (.flatMap induction)
  | @object fields named each induction =>
      rw [parts, words, partsOfFields_eq, wordsOfFields_eq]
      refine .enclose (.flatMap fun field member => ?_)
      exact .name field.1 (.word _ (induction field member))

theorem Legible.readable (legible : value.Legible) : ∀ word ∈ value.words, word.Readable := by
  induction legible with
  | @int value within =>
      refine List.forall_mem_singleton.mpr ?_
      rwa [Lexeme.Readable, intOfText_toString]
  | string plainly =>
      refine List.forall_mem_singleton.mpr ?_
      rw [Lexeme.Readable, Text.unescape_quote plainly]
      rfl
  | list each induction =>
      rw [words, wordsOfItems_eq, Lexeme.readable_brackets]
      intro word member
      rcases List.mem_flatMap.mp member with ⟨item, among, inside⟩
      exact induction item among word inside
  | object named each induction =>
      rw [words, wordsOfFields_eq, Lexeme.readable_braces]
      intro word member
      rcases List.mem_flatMap.mp member with ⟨field, among, inside⟩
      rcases List.mem_cons.mp inside with rfl | inside
      · trivial
      rcases List.mem_cons.mp inside with rfl | inside
      · trivial
      · exact induction field among word inside
  | reference | boolean | null | symbol => simp [words]

/-! ## The words of the text -/

theorem renderItems_eq (items : List Literal) : renderItems items = items.map render := by
  induction items with
  | nil => rfl
  | cons item rest induction => rw [renderItems, induction, List.map_cons]

def renderField (field : Name × Literal) : String := field.1.text ++ ": " ++ field.2.render

theorem renderFields_eq (fields : List (Name × Literal)) :
    renderFields fields = fields.map renderField := by
  induction fields with
  | nil => rfl
  | cons field rest induction =>
      rcases field with ⟨name, value⟩
      rw [renderFields, induction, List.map_cons]
      rfl

end Literal

/-! What can stand after any literal. -/

def separators : List Char := [',', ':', ']', '\x7d']

/-- The text of something is read as these words wherever a separator comes after it. -/
def ReadsAs (text : String) (words : List Lexeme) : Prop :=
  ∀ next ∈ separators, ∀ rest,
    lexemes (text.toList ++ next :: rest) = words ++ lexemes (next :: rest)

theorem clear_separator {next : Char} (separates : next ∈ separators) (kind : Kind)
    (rest : List Char) : Clear kind (next :: rest) := by
  simp only [separators, List.mem_cons, List.not_mem_nil, or_false] at separates
  rcases separates with rfl | rfl | rfl | rfl <;>
    exact clear_cons ⟨rfl, by decide⟩ (by decide) kind rest

theorem lexemes_intercalate {α : Type} {text : α → String} {words : α → List Lexeme}
    {items : List α} (each : ∀ item ∈ items, ReadsAs (text item) (words item)) {closing : Char}
    (closes : closing ∈ separators) (rest : List Char) :
    lexemes ((", ".intercalate (items.map text)).toList ++ closing :: rest) =
      items.flatMap words ++ lexemes (closing :: rest) := by
  induction items with
  | nil => rfl
  | cons item items induction =>
      rw [List.forall_mem_cons] at each
      cases items with
      | nil =>
          rw [List.map_singleton, String.intercalate_singleton, List.flatMap_singleton]
          exact each.1 closing closes rest
      | cons next items =>
          have later := induction each.2
          rw [List.map_cons] at later
          have joined : (", ".intercalate ((item :: next :: items).map text)).toList ++
              closing :: rest = (text item).toList ++ ',' :: ' ' ::
                ((", ".intercalate (text next :: items.map text)).toList ++ closing :: rest) := by
            simp [String.intercalate_cons_cons]
          have comma : ',' ∈ separators := by decide
          rw [joined, each.1 ',' comma, lexemes_blank (by decide), lexemes_blank (by decide),
            later, ← List.append_assoc, ← List.flatMap_cons]

theorem spelled_keyword {text : String} (listed : text ∈ ["true", "false", "null"]) :
    Spelled .name text.toList := by
  simp only [List.mem_cons, List.not_mem_nil, or_false] at listed
  rcases listed with rfl | rfl | rfl <;>
    exact .name (by decide) (List.all_eq_true.mp (by decide))

namespace Literal

theorem lexemes_list {items : List Literal} (each : ∀ item ∈ items, ReadsAs item.render item.words)
    (rest : List Char) :
    lexemes ((list items).render.toList ++ rest) = (list items).words ++ lexemes rest := by
  have closes : ']' ∈ separators := by decide
  have inside := lexemes_intercalate each closes rest
  have text : (list items).render.toList ++ rest =
      '[' :: ((", ".intercalate (items.map render)).toList ++ ']' :: rest) := by
    simp [render, renderItems_eq]
  have opening := lexemes_mark .bracketOpen rfl
    ((", ".intercalate (items.map render)).toList ++ ']' :: rest)
  have closing := lexemes_mark .bracketClose rfl rest
  rw [text, words, wordsOfItems_eq, Lexeme.brackets_append]
  exact opening.trans (congrArg _ (inside.trans (congrArg _ closing)))

theorem readsAs_field {field : Name × Literal} (named : Spelled .name field.1.text.toList)
    (value : ReadsAs field.2.render field.2.words) :
    ReadsAs (renderField field) (fieldWords field) := by
  intro next separates rest
  have text : (renderField field).toList ++ next :: rest =
      field.1.text.toList ++ ':' :: ' ' :: (field.2.render.toList ++ next :: rest) := by
    simp [renderField]
  have colon := lexemes_mark .colon rfl (' ' :: (field.2.render.toList ++ next :: rest))
  rw [lexemes_blank (by decide), value next separates rest] at colon
  rw [text, lexemes_name named (clear_separator (by decide) _ _)]
  exact congrArg _ colon

theorem lexemes_object {fields : List (Name × Literal)}
    (each : ∀ field ∈ fields, ReadsAs (renderField field) (fieldWords field)) (rest : List Char) :
    lexemes ((object fields).render.toList ++ rest) = (object fields).words ++ lexemes rest := by
  have closes : '\x7d' ∈ separators := by decide
  have inside := lexemes_intercalate each closes rest
  have text : (object fields).render.toList ++ rest =
      '\x7b' :: ((", ".intercalate (fields.map renderField)).toList ++ '\x7d' :: rest) := by
    simp [render, renderFields_eq]
  have opening := lexemes_mark .braceOpen rfl
    ((", ".intercalate (fields.map renderField)).toList ++ '\x7d' :: rest)
  have closing := lexemes_mark .braceClose rfl rest
  rw [text, words, wordsOfFields_eq, Lexeme.braces_append]
  exact opening.trans (congrArg _ (inside.trans (congrArg _ closing)))

/-- The text of a literal is read as its words, if its last word does not run into the rest. -/
theorem lexemes_render {value : Literal} (legible : value.Legible) {rest : List Char}
    (clear : Clear value.lastKind rest) :
    lexemes (value.render.toList ++ rest) = value.words ++ lexemes rest := by
  induction legible generalizing rest with
  | @reference name isName =>
      have text : (render (.reference name)).toList ++ rest =
          '$' :: (name.text.toList ++ rest) := by
        simp [render]
      have opening := lexemes_mark .dollar rfl (name.text.toList ++ rest)
      rw [text, words]
      exact opening.trans (congrArg _ (lexemes_name isName clear))
  | @int value within =>
      exact lexemes_word (.int _) rfl (spelled_toString value) ⟨nofun, nofun⟩ clear
  | @string value plainly =>
      exact lexemes_word (.string _) rfl (Text.spelled_quote plainly) ⟨nofun, nofun⟩ clear
  | boolean value => cases value <;> exact lexemes_name (spelled_keyword (by decide)) clear
  | null => exact lexemes_name (spelled_keyword (by decide)) clear
  | symbol isName other => exact lexemes_name isName clear
  | list each induction =>
      refine lexemes_list (fun item member next separates rest => ?_) rest
      exact induction item member (clear_separator separates _ rest)
  | object named each induction =>
      refine lexemes_object (fun field member => readsAs_field (named field member) ?_) rest
      exact fun next separates rest => induction field member (clear_separator separates _ rest)

end Literal

end GraphQuery
