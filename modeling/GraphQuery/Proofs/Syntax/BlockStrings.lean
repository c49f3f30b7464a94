import Mathlib
import GraphQuery.Document.StringLiteral

namespace GraphQuery.StringLiteral

/-! What the text between triple quotes stands for. Its lines lose the indentation that they
share, and those at either end that are blank are left out. Of all other lines only a blank one
can lose more than indentation. -/

/-! ## Lines -/

def withoutReturn (line : List Char) : List Char :=
  if line.getLast? = some '\x0d' then line.dropLast else line

/-- The lines of pieces between line feeds. All but the last are followed by a line feed, to
which a carriage return before it belongs. -/
def finished : List (List Char) → List (List Char)
  | [] => []
  | [last] => [last]
  | line :: next :: rest => withoutReturn line :: finished (next :: rest)

/-- A text split at line feeds, with or without carriage returns before them. -/
def splitLines (text : List Char) : List (List Char) := finished (text.splitOn '\n')

theorem splitOn_cons (character : Char) (text : List Char) :
    (character :: text).splitOn '\n' =
      if character = '\n' then [] :: text.splitOn '\n'
      else (text.splitOn '\n').modifyHead (character :: ·) := by
  simp [List.splitOn, List.splitOnP_cons_eq_if_modifyHead]

theorem linesFrom_lineFeed (begun text : List Char) :
    linesFrom begun ('\n' :: text) = withoutReturn begun.reverse :: linesFrom [] text := by
  rw [withoutReturn, List.getLast?_reverse]
  split
  next returned =>
    obtain ⟨rest, rfl⟩ := List.head?_eq_some_iff.mp returned
    simp [linesFrom]
  next other =>
    rw [linesFrom]
    rintro rest rfl
    exact other rfl

theorem finished_eq_linesFrom (begun text : List Char) :
    finished ((text.splitOn '\n').modifyHead (begun.reverse ++ ·)) = linesFrom begun text ∨
      finished ((text.splitOn '\n').modifyHead (begun.reverse ++ ·)) =
        linesFrom begun text ++ [[]] := by
  induction text generalizing begun with
  | nil =>
      cases begun with
      | nil => exact .inr rfl
      | cons last begun => exact .inl (by simp [linesFrom, finished])
  | cons character text induction =>
      rw [splitOn_cons]
      split
      next lineFeed =>
        subst lineFeed
        obtain ⟨first, others, pieces⟩ := List.exists_cons_of_ne_nil (List.splitOn_ne_nil '\n' text)
        have later := induction []
        simp only [pieces, List.reverse_nil, List.nil_append, List.modifyHead_cons] at later ⊢
        rw [linesFrom_lineFeed, List.append_nil, finished, List.cons_append]
        exact later.imp (congrArg _) (congrArg _)
      next inside =>
        rw [linesFrom, List.modifyHead_modifyHead]
        · simpa [Function.comp_def] using induction (character :: begun)
        · exact inside

theorem exists_splitLines (text : List Char) : ∃ first later, splitLines text = first :: later := by
  obtain ⟨first, others, pieces⟩ := List.exists_cons_of_ne_nil (List.splitOn_ne_nil '\n' text)
  rw [splitLines, pieces]
  cases others <;> exact ⟨_, _, rfl⟩

theorem splitLines_eq (text : List Char) :
    splitLines text = lines text ∨ splitLines text = lines text ++ [[]] := by
  have whole := finished_eq_linesFrom [] text
  have same : (text.splitOn '\n').modifyHead (([] : List Char).reverse ++ ·) =
      text.splitOn '\n' := by
    cases text.splitOn '\n' <;> rfl
  rwa [same] at whole

/-! ## Indentation -/

theorem isBlank_of_isIndent {character : Char} (indents : isIndent character = true) :
    Text.isBlank character = true := by
  simp only [isIndent, Bool.or_eq_true, beq_iff_eq] at indents
  rcases indents with rfl | rfl <;> decide

theorem utf8Size_of_isIndent {character : Char} (indents : isIndent character = true) :
    character.utf8Size = 1 := by
  simp only [isIndent, Bool.or_eq_true, beq_iff_eq] at indents
  rcases indents with rfl | rfl <;> decide

/-- The least indentation of the lines that are not blank, or none if all are. -/
structure SharedIndent (lines : List (List Char)) (indent : Nat) : Prop where
  le : ∀ line ∈ lines, Text.isBlankLine line = false → indent ≤ indentWidth line
  reached : (∃ line ∈ lines, Text.isBlankLine line = false ∧ indentWidth line = indent) ∨
    (∀ line ∈ lines, Text.isBlankLine line = true) ∧ indent = 0

theorem sharedIndent_commonIndent (lines : List (List Char)) :
    SharedIndent lines (commonIndent lines) := by
  rw [commonIndent]
  generalize widths : (lines.filter fun line => !Text.isBlankLine line).map indentWidth = all
  have listed (width : Nat) : width ∈ all ↔
      ∃ line ∈ lines, Text.isBlankLine line = false ∧ indentWidth line = width := by
    simp [← widths, and_assoc]
  cases least : all.min? with
  | none =>
      rw [List.min?_eq_none_iff] at least
      have blank : ∀ line ∈ lines, Text.isBlankLine line = true := by
        intro line member
        rw [← Bool.not_eq_false]
        intro marked
        have inside := (listed _).mpr ⟨line, member, marked, rfl⟩
        rw [least] at inside
        cases inside
      exact ⟨fun _ _ _ => Nat.zero_le _, .inr ⟨blank, rfl⟩⟩
  | some indent =>
      obtain ⟨member, below⟩ := List.min?_eq_some_iff.mp least
      refine ⟨fun line inside marked => ?_, .inl ((listed indent).mp member)⟩
      exact below _ ((listed _).mpr ⟨line, inside, marked, rfl⟩)

theorem SharedIndent.append_blank {lines : List (List Char)} {indent : Nat}
    (shared : SharedIndent lines indent) : SharedIndent (lines ++ [[]]) indent := by
  refine ⟨?_, shared.reached.imp ?_ ?_⟩
  · intro line member marked
    rcases List.mem_append.mp member with member | member
    · exact shared.le line member marked
    · rw [List.mem_singleton.mp member] at marked
      cases marked
  · rintro ⟨line, member, found⟩
    exact ⟨line, List.mem_append_left _ member, found⟩
  · rintro ⟨blank, rfl⟩
    exact ⟨List.forall_mem_append.mpr ⟨blank, List.forall_mem_singleton.mpr rfl⟩, rfl⟩

/-! ## What a line loses -/

theorem dropWidth_suffix (width : Nat) (line : List Char) : dropWidth width line <:+ line := by
  fun_induction dropWidth width line with
  | case1 line => exact List.suffix_refl line
  | case2 => exact List.suffix_refl []
  | case3 width character rest _ induction =>
      exact induction.trans (List.suffix_cons character rest)
  | case4 => exact List.nil_suffix

theorem dropWidth_append {front : List Char} (indents : ∀ character ∈ front, isIndent character)
    (more : Nat) (rest : List Char) :
    dropWidth (front.length + more) (front ++ rest) = dropWidth more rest := by
  induction front with
  | nil => rw [List.length_nil, Nat.zero_add, List.nil_append]
  | cons character front induction =>
      rw [List.forall_mem_cons] at indents
      have one := utf8Size_of_isIndent indents.1
      have width : (character :: front).length + more = front.length + more + 1 := by
        rw [List.length_cons]
        omega
      rw [width, List.cons_append, dropWidth, one, if_pos (by omega), Nat.add_sub_cancel]
      exact induction indents.2

theorem exists_indent (line : List Char) : ∃ front rest, line = front ++ rest ∧
    indentWidth line = front.length ∧ (∀ character ∈ front, isIndent character) ∧
      ∀ next ∈ rest.head?, isIndent next = false := by
  refine ⟨line.takeWhile isIndent, line.dropWhile isIndent,
    List.takeWhile_append_dropWhile.symm, rfl, List.all_eq_true.mp List.all_takeWhile, ?_⟩
  intro next first
  have found := List.head?_dropWhile_not isIndent line
  rw [Option.mem_def.mp first] at found
  exact found

theorem isBlankLine_append (front rest : List Char) :
    Text.isBlankLine (front ++ rest) = (Text.isBlankLine front && Text.isBlankLine rest) := by
  simp [Text.isBlankLine]

theorem dropWidth_of_le {width : Nat} {line : List Char} (within : width ≤ indentWidth line) :
    dropWidth width line = line.drop width := by
  obtain ⟨front, rest, rfl, length, indents, _⟩ := exists_indent line
  rw [length] at within
  have taken : ∀ character ∈ front.take width, isIndent character = true :=
    fun character member => indents character (List.mem_of_mem_take member)
  have dropped := dropWidth_append taken 0 (front.drop width ++ rest)
  rw [← List.append_assoc, List.take_append_drop, List.length_take, Nat.min_eq_left within,
    Nat.add_zero, dropWidth] at dropped
  rw [dropped, List.drop_append_of_le_length within]

theorem dropWidth_succ_suffix (width : Nat) (character : Char) (rest : List Char) :
    dropWidth (width + 1) (character :: rest) <:+ rest := by
  rw [dropWidth]
  split
  · exact dropWidth_suffix _ _
  · exact List.nil_suffix

/-- Either only indentation is dropped, or the first character that is none is lost with it. -/
theorem dropWidth_eq_iff {width : Nat} {line : List Char} :
    dropWidth width line = line.drop (min width (indentWidth line)) ↔
      width ≤ indentWidth line ∨ ∀ character ∈ line, isIndent character = true := by
  by_cases within : width ≤ indentWidth line
  · rw [Nat.min_eq_left within]
    exact ⟨fun _ => .inl within, fun _ => dropWidth_of_le within⟩
  obtain ⟨front, rest, rfl, length, indents, stops⟩ := exists_indent line
  obtain ⟨more, rfl⟩ : ∃ more, width = front.length + (more + 1) :=
    ⟨width - front.length - 1, by omega⟩
  rw [length, Nat.min_eq_right (Nat.le_add_right _ _), List.drop_left,
    dropWidth_append indents]
  cases rest with
  | nil =>
      rw [List.append_nil]
      exact ⟨fun _ => .inr indents, fun _ => rfl⟩
  | cons next rest =>
      have outside := stops next rfl
      constructor
      · intro same
        have shorter := (dropWidth_succ_suffix more next rest).length_le
        rw [same, List.length_cons] at shorter
        omega
      · rintro (reaches | all)
        · omega
        · rw [all next (by simp)] at outside
          cases outside

theorem isBlankLine_of_suffix {rest line : List Char} (suffix : rest <:+ line)
    (blank : Text.isBlankLine line = true) : Text.isBlankLine rest = true := by
  obtain ⟨front, rfl⟩ := suffix
  rw [isBlankLine_append, Bool.and_eq_true] at blank
  exact blank.2

theorem SharedIndent.isBlankLine_dropWidth {lines : List (List Char)} {indent : Nat}
    (shared : SharedIndent lines indent) {line : List Char} (member : line ∈ lines) :
    Text.isBlankLine (dropWidth indent line) = Text.isBlankLine line := by
  cases marked : Text.isBlankLine line with
  | true => exact isBlankLine_of_suffix (dropWidth_suffix indent line) marked
  | false =>
      have within := shared.le line member marked
      have indented : Text.isBlankLine (line.take indent) = true := by
        have inside : line.take indent <+: line.takeWhile isIndent :=
          List.prefix_of_prefix_length_le (List.take_prefix indent line)
            (List.takeWhile_prefix isIndent)
            (Nat.le_trans (List.length_take_le indent line) within)
        refine List.all_eq_true.mpr fun character among => isBlank_of_isIndent ?_
        exact List.all_eq_true.mp List.all_takeWhile character (inside.subset among)
      rw [← List.take_append_drop indent line, isBlankLine_append, indented,
        Bool.true_and] at marked
      rw [dropWidth_of_le within, marked]

/-! ## Blank lines at the ends -/

/-- The value is the lines without the blank ones at either end, with line feeds in between. -/
def Joins (lines : List (List Char)) (value : List Char) : Prop :=
  ∃ front kept back, lines = front ++ (kept ++ back) ∧
    (∀ line ∈ front ++ back, Text.isBlankLine line = true) ∧
    (∀ line ∈ kept.head?, Text.isBlankLine line = false) ∧
    (∀ line ∈ kept.getLast?, Text.isBlankLine line = false) ∧
    value = ['\n'].intercalate kept

theorem exists_blank_front (lines : List (List Char)) : ∃ front,
    lines = front ++ lines.dropWhile Text.isBlankLine ∧
      (∀ line ∈ front, Text.isBlankLine line = true) ∧
      ∀ line ∈ (lines.dropWhile Text.isBlankLine).head?, Text.isBlankLine line = false := by
  refine ⟨lines.takeWhile Text.isBlankLine, List.takeWhile_append_dropWhile.symm,
    List.all_eq_true.mp List.all_takeWhile, ?_⟩
  intro line first
  have found := List.head?_dropWhile_not Text.isBlankLine lines
  rw [Option.mem_def.mp first] at found
  exact found

theorem joins_dropOuterBlankLines (lines : List (List Char)) :
    Joins lines (['\n'].intercalate (dropOuterBlankLines lines)) := by
  obtain ⟨front, whole, blankFront, first⟩ := exists_blank_front lines
  obtain ⟨back, reversed, blankBack, last⟩ :=
    exists_blank_front (lines.dropWhile Text.isBlankLine).reverse
  rw [dropOuterBlankLines]
  generalize lines.dropWhile Text.isBlankLine = rest at whole first reversed last ⊢
  generalize rest.reverse.dropWhile Text.isBlankLine = kept at reversed last ⊢
  have split : rest = kept.reverse ++ back.reverse := by
    rw [← List.reverse_append, ← reversed, List.reverse_reverse]
  refine ⟨front, kept.reverse, back.reverse, by rw [← split, ← whole], ?_, ?_, ?_, rfl⟩
  · refine List.forall_mem_append.mpr ⟨blankFront, fun line member => ?_⟩
    exact blankBack line (List.mem_reverse.mp member)
  · intro line found
    apply first
    rw [split, List.head?_append_of_ne_nil]
    · exact found
    · rintro none
      rw [none] at found
      cases found
  · rwa [List.getLast?_reverse]

theorem Joins.append_blank {lines : List (List Char)} {value : List Char}
    (joins : Joins lines value) : Joins (lines ++ [[]]) value := by
  obtain ⟨front, kept, back, rfl, blank, first, last, same⟩ := joins
  refine ⟨front, kept, back ++ [[]], by simp, ?_, first, last, same⟩
  rw [← List.append_assoc]
  exact List.forall_mem_append.mpr ⟨blank, List.forall_mem_singleton.mpr rfl⟩

/-! ## Values -/

/-- The value is the lines of the text without the blank ones at either end, and after the first
line without the indentation that is shared, or as much of it as there is. -/
def Dedents (text value : List Char) : Prop :=
  ∃ first later indent, splitLines (unescapeQuotes text) = first :: later ∧
    SharedIndent later indent ∧
    Joins (first :: later.map fun line => line.drop (min indent (indentWidth line))) value

theorem exists_joined (text : List Char) : ∃ first later indent,
    splitLines (unescapeQuotes text) = first :: later ∧ SharedIndent later indent ∧
      Joins (first :: later.map (dropWidth indent)) (blockValue text) := by
  have either := splitLines_eq (unescapeQuotes text)
  rw [blockValue]
  cases found : lines (unescapeQuotes text) with
  | nil =>
      obtain ⟨first, later, split⟩ := exists_splitLines (unescapeQuotes text)
      have single : splitLines (unescapeQuotes text) = [[]] := by
        rw [found, split] at either
        rw [split]
        exact either.resolve_left nofun
      refine ⟨[], [], 0, single, ⟨nofun, .inr ⟨nofun, rfl⟩⟩, ?_⟩
      exact ⟨[[]], [], [], rfl, List.forall_mem_singleton.mpr rfl, nofun, nofun, rfl⟩
  | cons first others =>
      rw [found] at either
      have shared := sharedIndent_commonIndent others
      have joins :=
        joins_dropOuterBlankLines (first :: others.map (dropWidth (commonIndent others)))
      rcases either with split | split
      · exact ⟨first, others, _, split, shared, joins⟩
      · refine ⟨first, others ++ [[]], _, split.trans (List.cons_append), shared.append_blank, ?_⟩
        have empty : dropWidth (commonIndent others) [] = [] :=
          List.suffix_nil.mp (dropWidth_suffix _ [])
        rw [List.map_append, List.map_singleton, empty]
        exact joins.append_blank

/-- The value of a text is its lines, but for the blank ones at either end. Each line after the
first loses the width of the indentation that is shared. It loses indentation alone, unless it
is blank and something other than spaces and tabs stands where indentation could. -/
theorem blockValue_joins_lines (text : List Char) :
    (∃ first later indent, splitLines (unescapeQuotes text) = first :: later ∧
      SharedIndent later indent ∧ Joins (first :: later.map (dropWidth indent)) (blockValue text) ∧
      ∀ line ∈ later, Text.isBlankLine (dropWidth indent line) = Text.isBlankLine line ∧
        (dropWidth indent line = line.drop (min indent (indentWidth line)) ↔
          Text.isBlankLine line = false ∨ indent ≤ indentWidth line ∨
            ∀ character ∈ line, isIndent character = true)) ∧
    ((∀ line ∈ (splitLines (unescapeQuotes text)).tail, Text.isBlankLine line = true →
      ∀ character ∈ line, isIndent character = true) → Dedents text (blockValue text)) := by
  obtain ⟨first, later, indent, split, shared, joins⟩ := exists_joined text
  have loses (line : List Char) (member : line ∈ later) :
      dropWidth indent line = line.drop (min indent (indentWidth line)) ↔
        Text.isBlankLine line = false ∨ indent ≤ indentWidth line ∨
          ∀ character ∈ line, isIndent character = true := by
    rw [dropWidth_eq_iff]
    exact ⟨.inr, Or.rec (fun marked => .inl (shared.le line member marked)) id⟩
  refine ⟨⟨first, later, indent, split, shared, joins, fun line member =>
    ⟨shared.isBlankLine_dropWidth member, loses line member⟩⟩, fun plain => ?_⟩
  rw [split, List.tail_cons] at plain
  have same : later.map (dropWidth indent) =
      later.map fun line => line.drop (min indent (indentWidth line)) := by
    refine List.map_congr_left fun line member => (loses line member).mpr ?_
    cases marked : Text.isBlankLine line with
    | false => exact .inl rfl
    | true => exact .inr (.inr (plain line member marked))
  exact ⟨first, later, indent, split, shared, same ▸ joins⟩

def poem : List Char := "\n  x\r\n \n   y\n".toList

theorem poem_is_dedented :
    (∀ line ∈ (splitLines (unescapeQuotes poem)).tail, Text.isBlankLine line = true →
      ∀ character ∈ line, isIndent character = true) ∧
    Dedents poem ['x', '\n', '\n', ' ', 'y'] := by
  have found : splitLines (unescapeQuotes poem) =
      [[], [' ', ' ', 'x'], [' '], [' ', ' ', ' ', 'y'], []] := by cbv
  have plain : ∀ line ∈ (splitLines (unescapeQuotes poem)).tail, Text.isBlankLine line = true →
      ∀ character ∈ line, isIndent character = true := by
    rw [found]
    intro line member marked
    simp only [List.tail_cons, List.mem_cons, List.not_mem_nil, or_false] at member
    rcases member with rfl | rfl | rfl | rfl
    · exact absurd marked (by decide)
    · exact List.forall_mem_singleton.mpr (by decide)
    · exact absurd marked (by decide)
    · exact nofun
  have value : blockValue poem = ['x', '\n', '\n', ' ', 'y'] := by cbv
  exact ⟨plain, value ▸ (blockValue_joins_lines poem).2 plain⟩

def spaced : List Char := "x\n  y\n\u00a0\n  z".toList

theorem wide_space_is_lost : blockValue spaced = ['x', '\n', 'y', '\n', '\n', 'z'] ∧
    ¬ Dedents spaced (blockValue spaced) := by
  have value : blockValue spaced = ['x', '\n', 'y', '\n', '\n', 'z'] := by cbv
  refine ⟨value, ?_⟩
  rw [value]
  rintro ⟨first, later, indent, split, shared, front, kept, back, whole, blank, _, _, same⟩
  have found : splitLines (unescapeQuotes spaced) =
      [['x'], [' ', ' ', 'y'], ['\u00a0'], [' ', ' ', 'z']] := by cbv
  rw [found] at split
  cases split
  have two : indent = 2 := by
    rcases shared.reached with ⟨line, member, marked, rfl⟩ | ⟨all, _⟩
    · simp only [List.mem_cons, List.not_mem_nil, or_false] at member
      rcases member with rfl | rfl | rfl
      · decide
      · exact absurd marked (by decide)
      · decide
    · exact absurd (all [' ', ' ', 'y'] (by simp)) (by decide)
  subst two
  have lines : (['x'] :: [[' ', ' ', 'y'], ['\u00a0'], [' ', ' ', 'z']].map fun line =>
      line.drop (min 2 (indentWidth line))) = [['x'], ['y'], ['\u00a0'], ['z']] := by decide
  rw [lines] at whole
  -- Neither the first nor the last line is blank, so that all of them are kept.
  rw [List.forall_mem_append] at blank
  cases front with
  | cons line front =>
      rw [List.cons_append, List.cons.injEq] at whole
      exact absurd (blank.1 line List.mem_cons_self) (by rw [← whole.1]; decide)
  | nil =>
      rcases back.eq_nil_or_concat with rfl | ⟨back, last, rfl⟩
      · rw [List.nil_append, List.append_nil] at whole
        rw [← whole] at same
        exact absurd same (by decide)
      · have ends := congrArg List.getLast? whole
        have marked := blank.2 last (by simp)
        rw [List.nil_append, List.concat_eq_append, ← List.append_assoc,
          List.getLast?_concat] at ends
        cases ends
        exact absurd marked (by decide)

end GraphQuery.StringLiteral
