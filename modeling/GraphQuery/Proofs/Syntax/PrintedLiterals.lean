import GraphQuery.Proofs.Syntax.FaultPositions
import GraphQuery.Proofs.Syntax.LiteralTexts
import GraphQuery.Proofs.Syntax.ValueSlots
import GraphQuery.Proofs.Syntax.Stretches

namespace GraphQuery

/-! Values that are printed where they have been read. The text of a value, in the place of the
one that it was read from, gives the same document. -/

open Token

/-! ## After a value -/

namespace Literal

theorem exists_lastKind {value : Literal} {words : List Lexeme}
    (pieces : Part.Written value.parts words) : ∃ earlier last, words = earlier ++ [last] ∧
      (value.lastKind = .string ∨ last.kind = value.lastKind) := by
  cases value with
  | reference name =>
      rcases Part.Written.mark_cons pieces with ⟨rest, rfl, marked⟩
      rcases marked.name_cons with ⟨rest, rfl, done⟩
      rw [done.eq_nil]
      exact ⟨[_], _, rfl, .inr rfl⟩
  | list items =>
      rcases Part.Written.enclosed pieces with ⟨inner, rfl, _⟩
      exact ⟨_ :: inner, _, rfl, .inr rfl⟩
  | object fields =>
      rcases Part.Written.enclosed pieces with ⟨inner, rfl, _⟩
      exact ⟨_ :: inner, _, rfl, .inr rfl⟩
  | string value =>
      rcases Part.Written.atom_alone pieces with ⟨lexeme, rfl, _⟩
      exact ⟨[], lexeme, rfl, .inl rfl⟩
  | int | float | boolean | null | symbol =>
      rcases Part.Written.atom_alone pieces with ⟨lexeme, rfl, written⟩
      cases written <;> exact ⟨[], _, rfl, .inr rfl⟩

theorem occupied {value : Literal} {words : List Lexeme} (pieces : Part.Written value.parts words) :
    words ≠ [] := by
  rcases exists_lastKind pieces with ⟨earlier, last, rfl, _⟩
  exact List.append_ne_nil_of_right_ne_nil _ (List.cons_ne_nil last [])

end Literal

theorem clear_of_scan {first : Char} {word back : List Char} {kind : Kind}
    (scanned : scan first (word ++ back) = (kind, word.length)) (noString : kind ≠ .string) :
    Clear kind back := by
  cases kind with
  | name => exact endsName_of_scan scanned
  | int => exact endsNumber_of_scan scanned (.inl rfl)
  | string => exact absurd rfl noString
  | _ => trivial

theorem Token.Spelled.of_quote {kind : Kind} {word : List Char}
    (spelled : Spelled kind ('"' :: word)) : kind ∈ [.string, .blockString] := by
  generalize whole : '"' :: word = text at spelled
  cases spelled with
  | punctuator isPunctuator => cases kind <;> cases isPunctuator <;> cases whole
  | name start =>
      cases whole
      cases start
  | number unsigned =>
      rcases unsigned.exists_first with ⟨digit, others, rfl, isDigit⟩
      cases whole
      cases isDigit
  | negative => cases whole
  | string | blockString => decide

theorem clear_string {before back : List Char} {token : Token} {others : List Token}
    (left : tokensFrom (Cursor.after before back) = token :: others)
    (listed : token.kind ∈ [.parenClose, .name, .dollar]) : Clear .string back := by
  have valid : token.kind ≠ .endOfInput ∧ token.kind ≠ .invalid := by
    constructor <;> intro same <;> rw [same] at listed <;> exact absurd listed (by decide)
  rcases exists_first left valid.1 with ⟨gap, first, word, rest, rfl, ignorable, _, _, scanned, _⟩
  have spelled := (spelled_of_scan_append scanned valid.2).1
  cases ignorable with
  | nil =>
      rintro next ⟨⟩ rfl
      have isString := spelled.of_quote
      simp only [List.mem_cons, List.not_mem_nil, or_false] at listed isString
      rcases isString with same | same <;> rw [same] at listed <;> exact absurd listed (by decide)
  | blank isBlank more =>
      rintro next ⟨⟩ rfl
      exact absurd isBlank (by decide)
  | comment oneLine stops more =>
      rintro next ⟨⟩
      decide

namespace Literal

/-- What comes after a literal in a text does not run into its last word, nor into another word
that is written for the same literal. -/
theorem clear_after {value : Literal} {words : List Token} {back : List Char}
    (pieces : Part.Written value.parts (words.map lexeme))
    (scanned : ∀ last ∈ words.getLast?, ∃ first word,
      scan first (word ++ back) = (last.kind, word.length))
    (noString : Clear .string back) : Clear value.lastKind back := by
  by_cases isString : value.lastKind = .string
  · rwa [isString]
  rcases exists_lastKind pieces with ⟨earlier, last, same, ends⟩
  have atLast : words.getLast?.map lexeme = some last := by
    rw [← List.getLast?_map, same, List.getLast?_concat]
  rcases Option.map_eq_some_iff.mp atLast with ⟨token, found, rfl⟩
  rcases scanned token found with ⟨first, word, scanned⟩
  have kind : token.kind = value.lastKind := by
    rw [← kind_lexeme]
    exact ends.resolve_left isString
  rw [kind] at scanned
  exact clear_of_scan scanned isString

theorem Legible.exists_first {value : Literal} (legible : value.Legible) :
    ∃ first rest, value.render.toList = first :: rest ∧ first ∉ '#' :: blanks := by
  cases legible with
  | @reference name isName => exact ⟨'$', name.text.toList, by simp [render], by decide⟩
  | int => exact (spelled_toString _).exists_first
  | string plainly => exact (Text.spelled_quote plainly).exists_first
  | boolean value => cases value <;> exact (spelled_keyword (by decide)).exists_first
  | null => exact (spelled_keyword (by decide)).exists_first
  | symbol isName => exact isName.exists_first
  | @list items =>
      exact ⟨'[', (", ".intercalate (renderItems items)).toList ++ [']'], by simp [render],
        by decide⟩
  | @object fields =>
      exact ⟨'\x7b', (", ".intercalate (renderFields fields)).toList ++ ['\x7d'], by simp [render],
        by decide⟩

end Literal

/-! ## The text of a value in a document -/

namespace ValueSlot

variable {slot : ValueSlot} {text front original back : List Char}

/-- The text of the value of a slot, from its first word to its last one, and the texts before and
after it. -/
def Holds (slot : ValueSlot) (text front original back : List Char) : Prop :=
  text = front ++ (original ++ back) ∧
    ∃ words, slot.Takes (tokenize text) words ∧ Stretch words front original

theorem Holds.unique {other another after : List Char} (holds : slot.Holds text front original back)
    (also : slot.Holds text other another after) :
    other = front ∧ another = original ∧ after = back := by
  rcases holds with ⟨same, words, takes, stretch⟩
  rcases also with ⟨alsoSame, others, alsoTakes, alsoStretch⟩
  obtain rfl := takes.unique alsoTakes (Parser.nodup_tokenize text)
  exact alsoStretch.unique stretch (alsoSame.symm.trans same)

end ValueSlot

theorem Token.inside_of_tokenize {text : List Char} {tokens : List Token} {last : Token}
    (split : tokenize text = tokens ++ [last]) : ∀ token ∈ tokens, token.kind ≠ .endOfInput := by
  rcases tokenize_ends text with ⟨others, final, same, _, inside⟩
  rw [split] at same
  obtain rfl := List.append_inj_left' same rfl
  exact inside

theorem Parser.valid_of_parse {limit : Nat} {text : List Char} {document : Document}
    (parsed : parseDocument limit text = .ok document) :
    ∀ token ∈ tokenize text, token.kind ≠ .invalid := by
  simp only [parseDocument] at parsed
  split at parsed
  · cases parsed
  next found rest given =>
    cases parsed
    have ended := ended_ofText text
    have atEnd := (takes_definitions (Stream.settled_ofText text) (Nat.lt_succ_self _) given).2
    rcases exists_reads ended given with ⟨count, reads, rfl⟩
    have last := Stream.tokens_skip (reads.passes.count_le ended)
    rw [(ended.skip count).atEnd atEnd, Stream.tokens_ofText] at last
    rw [← List.take_append_drop count (tokenize text), ← last, List.forall_mem_append,
      List.forall_mem_singleton, atEnd]
    exact ⟨reads.passes.valid, by decide⟩

/-- A place in a document where a value stands: the words before it do not depend on the value,
nor do those after it, and any other words for the value give the document as well. -/
structure ValueSlot.Opens (slot : ValueSlot) (document : Document) (text front back : List Char)
    (before words : List Lexeme) : Prop where
  split : lexemes text = before ++ (words ++ lexemes back)
  written : Part.Written slot.value.parts words
  clear : Clear slot.value.lastKind back
  joins : ∀ first printed, first ∉ '#' :: blanks →
    lexemes (front ++ first :: printed) = before ++ lexemes (first :: printed)
  exchange : ∀ others, Part.Written slot.value.parts others →
    Part.Written [document.part] (before ++ (others ++ lexemes back))

namespace Document

variable {limit : Nat} {text : List Char} {document : Document} {slot : ValueSlot}

theorem exists_opens (parsed : Parser.parseDocument limit text = .ok document)
    (member : slot ∈ document.slots) : ∃ front original back before words,
      slot.Holds text front original back ∧ slot.Opens document text front back before words := by
  have occupied : document.definitions ≠ [] := by
    intro none
    rw [slots, none] at member
    cases member
  rcases fills_of_parse parsed occupied with ⟨tokens, last, split, _, fills⟩
  rcases (Document.within member).exists_takes fills with
    ⟨before, signs, words, follower, after, rfl, fillsSigns, fillsValue, listed, exchange⟩
  rcases ValueSlot.exists_mark fillsSigns with ⟨earlier, mark, rfl, isMark⟩
  -- The value comes right after a mark, so that no word before it can run into another text.
  have divided : tokenize text = (before ++ slot.name.token :: earlier) ++
      mark :: (words ++ follower :: (after ++ [last])) := by
    rw [split]
    simp
  have inside : ∀ token ∈ words, token.kind ≠ .endOfInput :=
    fun token among => inside_of_tokenize split token (by simp [among])
  have written := fillsValue.lexemes_written
  have nonempty : words ≠ [] := fun none => Literal.occupied written (by rw [none, List.map_nil])
  rcases exists_stretch divided isMark (Parser.valid_of_parse parsed) inside nonempty with
    ⟨front, original, back, whole, stretch, left, scanned, joins⟩
  have following : lexemes back = (follower :: after).map lexeme := by
    rw [← lexemes_after (front ++ original) back, left, ← List.cons_append, List.dropLast_concat]
  refine ⟨front, original, back, (before ++ slot.name.token :: (earlier ++ [mark])).map lexeme,
    words.map lexeme, ⟨whole, words, ?_, stretch⟩, ⟨?_, written, ?_, ?_, ?_⟩⟩
  · refine ⟨before, earlier ++ [mark], follower, after ++ [last], ?_, fillsSigns, fillsValue⟩
    rw [split]
    simp
  · rw [following, lexemes, split, List.dropLast_concat]
    simp
  · exact Literal.clear_after written scanned (clear_string left listed)
  · intro first printed begins
    rw [joins first printed begins]
    simp
  · rw [following]
    exact exchange

/-- A value that can be printed stands in one place of the text from which it has been read. Its
own text, put into that place, gives a text that is read as the same document, but for places. -/
theorem printed_literals_parse_back (parsed : Parser.parseDocument limit text = .ok document)
    (member : slot ∈ document.slots) (printable : slot.value.Printable) :
    ∃ front original back, slot.Holds text front original back ∧
      (∀ other another after, slot.Holds text other another after →
        other = front ∧ another = original ∧ after = back) ∧
      ∃ again, Parser.parseDocument limit (front ++ (slot.value.render.toList ++ back)) =
        .ok again ∧ again.bare = document.bare := by
  rcases exists_opens parsed member with ⟨front, original, back, before, words, holds, opens⟩
  have fits := Parser.parseDocument_fits parsed
  have within : words ⊆ lexemes text := by
    rw [opens.split]
    exact fun word found => List.mem_append_right _ (List.mem_append_left _ found)
  -- Names are spelled as such and integers are within bounds, because they have been read.
  have legible := printable.legible opens.written
    (fun label found => spelled_of_name_mem (within found))
    (fun word found => fits.readable word (within found))
  rcases legible.exists_first with ⟨first, rest, printed, begins⟩
  have changed : lexemes (front ++ (slot.value.render.toList ++ back)) =
      before ++ (slot.value.words ++ lexemes back) := by
    rw [← Literal.lexemes_render legible opens.clear, printed]
    exact opens.joins first (rest ++ back) begins
  refine ⟨front, original, back, holds, fun _ _ _ also => holds.unique also,
    Parser.parseDocument_of_fits ⟨?_, ?_, fits.shallow⟩⟩
  · rw [changed]
    exact respell fits.written (opens.exchange _ legible.written)
  · have readable := fits.readable
    rw [changed]
    rw [opens.split] at readable
    simp only [List.forall_mem_append] at readable ⊢
    exact ⟨readable.1, legible.readable, readable.2.2⟩

def nestedValue : List Char :=
  ("query($a: Int = -1) \x7b f(x: \x7b " ++
    "k: [$a \"\"\"\n b\n\"\"\" \"\\u00e9\\n\" E], l: \x7b\x7d \x7d) \x7d").toList

def nestedObject : Literal :=
  .object [(⟨"k", ⟨29, 30⟩, ⟨1, 30⟩⟩,
      .list [.reference ⟨"a", ⟨34, 35⟩, ⟨1, 35⟩⟩, .string "b", .string "é\n", .symbol "E"]),
    (⟨"l", ⟨62, 63⟩, ⟨3, 20⟩⟩, .object [])]

theorem printable_nestedObject : nestedObject.Printable := by
  have plainly (text : String) (each : text.toList.all (Text.QuotedPlainly ·) = true) :
      (Literal.string text).Printable :=
    .string fun character member => of_decide_eq_true (List.all_eq_true.mp each character member)
  have empty : (Literal.object []).Printable := .object nofun
  refine .object (List.forall_mem_cons.mpr ⟨.list ?_, List.forall_mem_singleton.mpr empty⟩)
  simp only [List.forall_mem_cons, List.not_mem_nil, false_imp_iff, implies_true, and_true]
  exact ⟨.reference _, plainly _ (by decide +kernel), plainly _ (by decide +kernel), .symbol _⟩

theorem nested_value_parses_back : ∃ document, ∃ slot ∈ document.slots,
    Parser.parseDocument 3 nestedValue = .ok document ∧ slot.value.Printable ∧
      slot.value.render = "\x7bk: [$a, \"b\", \"é\\n\", E], l: \x7b\x7d\x7d" ∧
        ∃ front original back, slot.Holds nestedValue front original back ∧
          ∃ again, Parser.parseDocument 3 (front ++ (slot.value.render.toList ++ back)) =
            .ok again ∧ again.bare = document.bare := by
  have measured : (Parser.parseDocument 3 nestedValue).toOption.map
      (fun document => document.slots.map ValueSlot.value) = some [.int (-1), nestedObject] := by
    cbv
  cases parsed : Parser.parseDocument 3 nestedValue with
  | error error =>
      rw [parsed] at measured
      cases measured
  | ok document =>
      rw [parsed] at measured
      have values : document.slots.map ValueSlot.value = [.int (-1), nestedObject] :=
        Option.some.inj measured
      have among : nestedObject ∈ document.slots.map ValueSlot.value := by
        rw [values]
        exact List.mem_cons_of_mem _ List.mem_cons_self
      rcases List.mem_map.mp among with ⟨slot, member, isValue⟩
      have printable : slot.value.Printable := isValue ▸ printable_nestedObject
      rcases printed_literals_parse_back parsed member printable with
        ⟨front, original, back, holds, _, again⟩
      refine ⟨document, slot, member, rfl, printable, ?_, front, original, back, holds, again⟩
      rw [isValue]
      decide +kernel

end Document

end GraphQuery
