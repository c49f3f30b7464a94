import Mathlib
import GraphQuery.Proofs.Success
import GraphQuery.Proofs.Syntax.Completeness
import GraphQuery.Proofs.Syntax.Soundness

namespace GraphQuery

/-! The parser accepts exactly the texts of the grammar, and gives the only tree
that is written there. -/

def Phrase.document : Phrase Document :=
  ⟨Document.bare, Document.Written, Document.nesting, []⟩

namespace Parser

/-! ## Definitions up to the end -/

section Definitions

variable {limit bound : Nat} {stream rest : Stream} {words : List Lexeme}
  {found : List Definition}

theorem Stream.Shows.eq_nil (shows : stream.Shows words)
    (ends : stream.current.kind = .endOfInput) : words = [] := by
  cases shows with
  | done _ => rfl
  | more notEnd _ => exact absurd ends notEnd

theorem Stream.Shows.not_atEnd {first : Lexeme} (shows : stream.Shows (first :: words)) :
    stream.current.kind ≠ .endOfInput := by
  cases shows with
  | more notEnd _ => exact notEnd

theorem definition_occupied {tree : Definition} (written : tree.Written words) : words ≠ [] := by
  cases written with
  | operation written =>
      cases written with
      | shorthand written =>
          rcases written.selections with ⟨inner, rfl, _, _⟩
          exact nofun
      | full _ _ _ _ _ => exact nofun
  | fragment written =>
      cases written
      exact nofun

/-- The bound is never reached, since each definition takes a lexeme. -/
theorem definitions_sound (shows : stream.Shows words) (enough : words.length < bound)
    (done : definitions limit bound stream = .ok (found, rest)) :
    (Phrase.definition.sequence []).Fits limit (found.map Definition.bare) words := by
  induction bound generalizing stream words found with
  | zero => exact absurd enough (Nat.not_lt_zero _)
  | succ bound induction =>
      rw [definitions] at done
      split at done
      next ends =>
        cases done
        rw [shows.eq_nil ends]
        exact .nil
      next =>
        split at done
        · cases done
        next first between gives =>
          rcases definition_sound limit shows gives with ⟨taken, others, rfl, left, fits⟩
          have occupied := List.length_pos_iff.mpr (definition_occupied fits.written)
          rw [List.length_append] at enough
          split at done
          · cases done
          next more last doneMore =>
            cases done
            exact fits.cons (induction left (by omega) doneMore)

theorem definitions_complete {trees : List Definition}
    (fits : (Phrase.definition.sequence []).Fits limit trees words)
    (shows : stream.Shows words) (enough : words.length < bound) :
    ∃ found rest, definitions limit bound stream = .ok (found, rest) ∧
      found.map Definition.bare = trees := by
  induction bound generalizing stream words trees with
  | zero => exact absurd enough (Nat.not_lt_zero _)
  | succ bound induction =>
      cases trees with
      | nil =>
          rcases fits with ⟨written, _, _⟩
          cases written
          exact ⟨[], stream, by rw [definitions, if_pos shows.atEnd], rfl⟩
      | cons tree trees =>
          rcases fits.uncons with ⟨words, more, rfl, fits, fitsMore⟩
          have occupied := definition_occupied fits.written
          rcases definition_complete limit fits shows (apart_nil _) with
              ⟨first, between, gives, rfl, left⟩
          have notEnd : stream.current.kind ≠ .endOfInput := by
            rcases List.exists_cons_of_ne_nil occupied with ⟨word, words, rfl⟩
            exact shows.not_atEnd
          have shorter := List.length_pos_iff.mpr occupied
          rw [List.length_append] at enough
          rcases induction fitsMore left (by omega) with ⟨others, rest, done, rfl⟩
          refine ⟨first :: others, rest, ?_, rfl⟩
          rw [Gives] at gives
          rw [definitions, if_neg notEnd, gives]
          simp only [done]

end Definitions

/-! ## Documents -/

section Documents

variable {limit : Nat} {text : List Char} {tree : Document}

theorem parseDocument_fits {document : Document}
    (done : parseDocument limit text = .ok document) :
    Phrase.document.Fits limit document.bare (Token.lexemes text) := by
  have shows := Stream.shows_ofText text
  have length := shows.length_following
  simp only [parseDocument] at done
  split at done
  · cases done
  next found rest doneAll =>
    cases done
    rcases definitions_sound shows (by omega) doneAll with ⟨written, readable, shallow⟩
    exact ⟨.intro written, readable, shallow⟩

theorem parseDocument_of_fits (fits : Phrase.document.Fits limit tree (Token.lexemes text)) :
    ∃ document, parseDocument limit text = .ok document ∧ document.bare = tree := by
  have shows := Stream.shows_ofText text
  have length := shows.length_following
  rcases fits with ⟨written, readable, shallow⟩
  cases written with
  | intro written =>
      rcases definitions_complete ⟨written, readable, shallow⟩ shows
        (Nat.lt_succ_of_le (Nat.le_of_eq length.symm)) with ⟨found, rest, done, rfl⟩
      refine ⟨⟨found, ⟨(Stream.ofText text).current.span.start,
        max rest.current.span.stop (Stream.ofText text).current.span.start⟩⟩, ?_, rfl⟩
      simp only [parseDocument, done]

theorem bare_parseDocument_iff :
    (parseDocument limit text).toOption.map Document.bare = some tree ↔
      Phrase.document.Fits limit tree (Token.lexemes text) := by
  rw [Option.map_eq_some_iff]
  constructor
  · rintro ⟨document, done, rfl⟩
    exact parseDocument_fits (Except.eq_ok_of_toOption done)
  · intro fits
    rcases parseDocument_of_fits fits with ⟨document, done, same⟩
    exact ⟨document, by rw [done]; rfl, same⟩

/-- Readable lexemes write one tree at most: with room for both, the parser would
give the one and the other. -/
theorem written_unique {other : Document} (written : tree.Written (Token.lexemes text))
    (also : other.Written (Token.lexemes text))
    (readable : ∀ word ∈ Token.lexemes text, word.Readable) : tree = other := by
  have room := Nat.le_max_left tree.nesting other.nesting
  have roomAlso := Nat.le_max_right tree.nesting other.nesting
  have given := bare_parseDocument_iff.mpr ⟨written, readable, room⟩
  have givenAlso := bare_parseDocument_iff.mpr ⟨also, readable, roomAlso⟩
  exact Option.some.inj (given.symm.trans givenAlso)

end Documents

def tokenText (token : Token) : Token.Kind × String := (token.kind, token.text)

theorem lexemes_eq_of_alike {text other : List Char}
    (alike : (Token.tokenize text).map tokenText = (Token.tokenize other).map tokenText) :
    Token.lexemes text = Token.lexemes other := by
  have exchanged (tokens : List Token) : (tokens.map tokenText).map
      (fun pair => Token.lexeme ⟨pair.1, pair.2, Span.empty 0, Location.start⟩) =
        tokens.map Token.lexeme := by
    rw [List.map_map]
    rfl
  have same := congrArg (List.map fun pair : Token.Kind × String =>
    Token.lexeme ⟨pair.1, pair.2, Span.empty 0, Location.start⟩) alike
  rw [exchanged, exchanged] at same
  rw [Token.lexemes, Token.lexemes, List.map_dropLast, List.map_dropLast, same]

/-- A text is accepted if and only if its lexemes write a tree, are all readable, and
nest no deeper than the limit allows. What is given is the only tree they write, so
that it depends on the kinds and the texts of the tokens alone. -/
theorem accepts_grammar (limit : Nat) (text : List Char) :
    ((∃ document, parseDocument limit text = .ok document) ↔
      ∃ tree : Document, tree.Written (Token.lexemes text) ∧
        (∀ word ∈ Token.lexemes text, word.Readable) ∧ tree.nesting ≤ limit) ∧
    (∀ document, parseDocument limit text = .ok document →
      document.bare.Written (Token.lexemes text) ∧
        ∀ tree : Document, tree.Written (Token.lexemes text) → tree = document.bare) ∧
    ∀ other, (Token.tokenize other).map tokenText = (Token.tokenize text).map tokenText →
      (parseDocument limit other).toOption.map Document.bare =
        (parseDocument limit text).toOption.map Document.bare := by
  refine ⟨⟨?_, ?_⟩, ?_, ?_⟩
  · rintro ⟨document, done⟩
    rcases parseDocument_fits done with ⟨written, readable, shallow⟩
    exact ⟨document.bare, written, readable, shallow⟩
  · rintro ⟨tree, written, readable, shallow⟩
    rcases parseDocument_of_fits ⟨written, readable, shallow⟩ with ⟨document, done, _⟩
    exact ⟨document, done⟩
  · intro document done
    rcases parseDocument_fits done with ⟨written, readable, _⟩
    exact ⟨written, fun tree also => written_unique also written readable⟩
  · intro other alike
    have same := lexemes_eq_of_alike alike
    apply Option.ext
    intro tree
    rw [bare_parseDocument_iff, bare_parseDocument_iff, same]

def keywordNames : List Char :=
  ("query on($query: [on!]! = [null \"\"]) \x7b on: query ...fragment ... on on \x7b " ++
    "on(on: \x7b on: $on \x7d) @query \x7b true \x7d \x7d \x7d " ++
    "fragment fragment on on \x7b null \x7d").toList

theorem accepts_keyword_names : ∃ tree : Document, tree.Written (Token.lexemes keywordNames) ∧
    (∀ word ∈ Token.lexemes keywordNames, word.Readable) ∧ tree.nesting ≤ 3 := by
  have parses : (parseDocument 3 keywordNames).toOption.isSome = true := by cbv
  rcases Option.isSome_iff_exists.mp parses with ⟨document, done⟩
  exact (accepts_grammar 3 keywordNames).1.mp ⟨document, Except.eq_ok_of_toOption done⟩

end Parser

end GraphQuery
