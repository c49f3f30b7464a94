import Mathlib
import GraphQuery.Document.StringLiteral
import GraphQuery.Json.Printer

namespace GraphQuery

/-! What the text between two quotes stands for. It is a row of pieces, each of which denotes
a character, and what is made of it are these characters in their order. -/

/-! ## Hexadecimal numbers -/

namespace Digits

def IsHexDigit (digit : Char) (value : Nat) : Prop :=
  "0123456789abcdef".toList[value]? = some digit ∨ "0123456789ABCDEF".toList[value]? = some digit

instance (digit : Char) (value : Nat) : Decidable (IsHexDigit digit value) :=
  inferInstanceAs (Decidable (_ ∨ _))

def WritesHex (digits : List Char) (number : Nat) : Prop :=
  ∃ values, List.Forall₂ IsHexDigit digits values ∧ Nat.ofDigits 16 values.reverse = number

theorem hexValue?_of_isHexDigit {digit : Char} {value : Nat} (isDigit : IsHexDigit digit value) :
    hexValue? digit = some value := by
  have small : value < 16 := by
    rcases isDigit with found | found <;> exact (List.getElem?_eq_some_iff.mp found).1
  rcases isDigit with found | found <;> interval_cases value <;> cases found <;> rfl

theorem lt_of_hexValue? {digit : Char} {value : Nat} (found : hexValue? digit = some value) :
    digit.toNat < 128 := by
  have below {last : Char} (within : digit ≤ last) (ascii : last.toNat < 128) :
      digit.toNat < 128 := Nat.lt_of_le_of_lt (UInt32.le_iff_toNat_le.mp within) ascii
  rw [hexValue?] at found
  split at found
  next isDigit =>
    simp only [Char.isDigit, Bool.and_eq_true, decide_eq_true_eq] at isDigit
    have within : digit ≤ '9' := isDigit.2
    exact below within (by decide)
  split at found
  next lower => exact below lower.2 (by decide)
  split at found
  next upper => exact below upper.2 (by decide)
  · cases found

theorem hexValue?_eq_some {digit : Char} {value : Nat} :
    hexValue? digit = some value ↔ IsHexDigit digit value := by
  refine ⟨fun found => ?_, hexValue?_of_isHexDigit⟩
  have ascii : ∀ code < 128, ∀ value ∈ hexValue? (Char.ofNat code),
      IsHexDigit (Char.ofNat code) value := by decide
  have inside := ascii digit.toNat (lt_of_hexValue? found) value
  rw [Char.ofNat_toNat] at inside
  exact inside found

theorem appendHex?_eq_some {number total : Nat} {digits : List Char} :
    appendHex? number digits = some total ↔ ∃ values, List.Forall₂ IsHexDigit digits values ∧
      values.foldl (fun number value => number * 16 + value) number = total := by
  induction digits generalizing number with
  | nil => simp [appendHex?]
  | cons digit digits induction =>
      simp only [List.forall₂_cons_left_iff, ← hexValue?_eq_some]
      rw [appendHex?]
      constructor
      · intro done
        split at done
        next value found =>
          obtain ⟨values, written, same⟩ := induction.mp done
          exact ⟨value :: values, ⟨value, values, found, written, rfl⟩, same⟩
        · cases done
      · rintro ⟨_, ⟨value, values, found, written, rfl⟩, same⟩
        rw [found]
        exact induction.mpr ⟨values, written, same⟩

theorem appendHex?_zero_eq_some {digits : List Char} {number : Nat} :
    appendHex? 0 digits = some number ↔ WritesHex digits number := by
  rw [appendHex?_eq_some, WritesHex]
  have same (values : List Nat) : Nat.ofDigits 16 values.reverse =
      values.foldl (fun number value => number * 16 + value) 0 := by
    rw [Nat.ofDigits_eq_foldr, List.foldr_reverse]
    simp only [Nat.cast_id, Nat.mul_comm 16, Nat.add_comm]
  simp only [same]

theorem not_writesHex_plus (digits : List Char) (number : Nat) :
    ¬ WritesHex ('+' :: digits) number := by
  rintro ⟨_, written, _⟩
  obtain ⟨value, _, isDigit, _, _⟩ := List.forall₂_cons_left_iff.mp written
  have found := hexValue?_of_isHexDigit isDigit
  cases found

end Digits

namespace StringLiteral

open Digits

/-! ## Pieces -/

/-- The letters that stand for one character each when a backslash comes before them. -/
def letters : List (Char × Char) :=
  [('"', '"'), ('\\', '\\'), ('/', '/'), ('b', '\x08'), ('f', '\x0c'), ('n', '\n'),
    ('r', '\x0d'), ('t', '\t')]

/-- What a piece of a body denotes. Four hexadecimal digits stand for a code point; where signs
are allowed, a plus sign may stand in the place of the first of them. -/
inductive Denotes (signs : Bool) : List Char → Char → Prop
  | plain {character : Char} (unmarked : character ≠ '\\') :
      Denotes signs [character] character
  | letter {letter character : Char} (listed : (letter, character) ∈ letters) :
      Denotes signs ['\\', letter] character
  | code {digits : List Char} {number : Nat} (four : digits.length = 4)
      (written : WritesHex digits number) (scalar : number.isValidChar) :
      Denotes signs ('\\' :: 'u' :: digits) (Char.ofNat number)
  | signed (allowed : signs = true) {digits : List Char} {number : Nat}
      (three : digits.length = 3) (written : WritesHex digits number)
      (scalar : number.isValidChar) :
      Denotes signs ('\\' :: 'u' :: '+' :: digits) (Char.ofNat number)

inductive Spells (signs : Bool) : List Char → List Char → Prop
  | nil : Spells signs [] []
  | cons {piece body value : List Char} {character : Char}
      (denotes : Denotes signs piece character) (more : Spells signs body value) :
      Spells signs (piece ++ body) (character :: value)

theorem simpleEscape?_eq_some {letter character : Char} :
    simpleEscape? letter = some character ↔ (letter, character) ∈ letters := by
  constructor
  · intro found
    unfold simpleEscape? at found
    split at found <;> cases found <;> decide
  · intro listed
    simp only [letters, List.mem_cons, Prod.mk.injEq, List.not_mem_nil, or_false] at listed
    rcases listed with ⟨rfl, rfl⟩ | ⟨rfl, rfl⟩ | ⟨rfl, rfl⟩ | ⟨rfl, rfl⟩ | ⟨rfl, rfl⟩ |
      ⟨rfl, rfl⟩ | ⟨rfl, rfl⟩ | ⟨rfl, rfl⟩ <;> rfl

theorem scalar?_eq_some {code : Nat} {character : Char} :
    scalar? code = some character ↔ code.isValidChar ∧ Char.ofNat code = character := by
  simp [scalar?]

theorem codePoint?_eq_some {first : Char} {others : List Char} {number : Nat} :
    codePoint? first others = some number ↔
      (first = '+' ∧ WritesHex others number) ∨ WritesHex (first :: others) number := by
  rw [codePoint?]
  split
  next plus =>
    subst plus
    simp [appendHex?_zero_eq_some, not_writesHex_plus]
  next digit => simp [appendHex?_zero_eq_some, digit]

/-! ## Resolving pieces -/

theorem unescape_plain {character : Char} (unmarked : character ≠ '\\') (body : List Char) :
    unescape (character :: body) = (unescape body).map (character :: ·) := by
  rw [unescape]
  all_goals
    intros
    contradiction

theorem unescape_letter {letter character : Char} (listed : (letter, character) ∈ letters)
    (body : List Char) :
    unescape ('\\' :: letter :: body) = (unescape body).map (character :: ·) := by
  rw [unescape, simpleEscape?_eq_some.mpr listed]
  rintro _ _ _ _ _ rfl
  have found := simpleEscape?_eq_some.mpr listed
  cases found

theorem unescape_code {first second third fourth : Char} {number : Nat}
    (found : codePoint? first [second, third, fourth] = some number)
    (scalar : number.isValidChar) (body : List Char) :
    unescape ('\\' :: 'u' :: first :: second :: third :: fourth :: body) =
      (unescape body).map (Char.ofNat number :: ·) := by
  rw [unescape, found, Option.bind_some, scalar?_eq_some.mpr ⟨scalar, rfl⟩]

theorem denotes_code {first second third fourth character : Char}
    (found : (codePoint? first [second, third, fourth]).bind scalar? = some character) :
    Denotes true ['\\', 'u', first, second, third, fourth] character := by
  obtain ⟨number, point, isScalar⟩ := Option.bind_eq_some_iff.mp found
  obtain ⟨scalar, rfl⟩ := scalar?_eq_some.mp isScalar
  rcases codePoint?_eq_some.mp point with ⟨rfl, written⟩ | written
  · exact .signed rfl rfl written scalar
  · exact .code rfl written scalar

theorem unescape_piece {piece : List Char} {character : Char}
    (denotes : Denotes true piece character) (body : List Char) :
    unescape (piece ++ body) = (unescape body).map (character :: ·) := by
  cases denotes with
  | plain unmarked => exact unescape_plain unmarked body
  | letter listed => exact unescape_letter listed body
  | @code digits number four written scalar =>
      match digits, four with
      | [first, second, third, fourth], _ =>
          exact unescape_code (codePoint?_eq_some.mpr (.inr written)) scalar body
  | @signed _ digits number three written scalar =>
      match digits, three with
      | [second, third, fourth], _ =>
          exact unescape_code (codePoint?_eq_some.mpr (.inl ⟨rfl, written⟩)) scalar body

/-! ## Bodies -/

theorem unescape_of_spells {body value : List Char} (spells : Spells true body value) :
    unescape body = some value := by
  induction spells with
  | nil => rfl
  | cons denotes more induction => rw [unescape_piece denotes, induction, Option.map_some]

theorem spells_of_unescape {body value : List Char} (done : unescape body = some value) :
    Spells true body value := by
  fun_induction unescape body generalizing value with
  | case1 =>
      cases done
      exact .nil
  | case2 first second third fourth rest character found induction =>
      obtain ⟨others, doneRest, rfl⟩ := Option.map_eq_some_iff.mp done
      exact .cons (denotes_code found) (induction doneRest)
  | case4 letter rest notCode character found induction =>
      obtain ⟨others, doneRest, rfl⟩ := Option.map_eq_some_iff.mp done
      exact .cons (.letter (simpleEscape?_eq_some.mp found)) (induction doneRest)
  | case7 character rest notCode notLetter notLone induction =>
      obtain ⟨others, doneRest, rfl⟩ := Option.map_eq_some_iff.mp done
      have unmarked : character ≠ '\\' := by
        rintro rfl
        cases rest with
        | nil => exact notLone rfl rfl
        | cons letter rest => exact notLetter letter rest rfl rfl
      have piece : Denotes true [character] character := .plain unmarked
      exact .cons piece (induction doneRest)
  | _ => cases done

theorem Denotes.allow {signs : Bool} {piece : List Char} {character : Char}
    (denotes : Denotes signs piece character) : Denotes true piece character := by
  cases denotes with
  | plain unmarked => exact .plain unmarked
  | letter listed => exact .letter listed
  | code four written scalar => exact .code four written scalar
  | signed _ three written scalar => exact .signed rfl three written scalar

theorem Spells.allow {signs : Bool} {body value : List Char} (spells : Spells signs body value) :
    Spells true body value := by
  induction spells with
  | nil => exact .nil
  | cons denotes _ induction => exact .cons denotes.allow induction

theorem Spells.unsigned {signs : Bool} {body value : List Char} (spells : Spells signs body value)
    (unsigned : ¬ ['\\', 'u', '+'] <:+: body) : Spells false body value := by
  induction spells with
  | nil => exact .nil
  | @cons piece body value character denotes more induction =>
      have later := induction fun inside => unsigned (inside.trans (List.suffix_append _ _).isInfix)
      cases denotes with
      | plain unmarked => exact .cons (.plain unmarked) later
      | letter listed => exact .cons (.letter listed) later
      | code four written scalar => exact .cons (.code four written scalar) later
      | @signed _ digits number three written scalar =>
          exact absurd ⟨[], digits ++ body, rfl⟩ unsigned

/-! ## Bodies that are made for a text -/

theorem isHexDigit_digitChar {value : Nat} (small : value < 16) :
    IsHexDigit (Nat.digitChar value) value := by
  interval_cases value <;> decide

theorem writesHex_fourHexDigits {code : Nat} (small : code < 65536) :
    WritesHex (Json.fourHexDigits code) code := by
  have digit (number : Nat) : IsHexDigit (Nat.digitChar (number % 16)) (number % 16) :=
    isHexDigit_digitChar (Nat.mod_lt _ (by decide))
  refine ⟨[code / 4096 % 16, code / 256 % 16, code / 16 % 16, code % 16], ?_, ?_⟩
  · exact .cons (digit _) (.cons (digit _) (.cons (digit _) (.cons (digit _) .nil)))
  · simp only [List.reverse_cons, List.reverse_nil, List.nil_append, List.cons_append,
      Nat.ofDigits_cons, Nat.ofDigits_nil]
    omega

theorem denotes_escapeCharacter (character : Char) :
    Denotes false (Json.escapeCharacter character) character := by
  unfold Json.escapeCharacter
  split
  case h_8 notQuote notEscape _ _ _ _ _ =>
    split
    next control =>
      have written := writesHex_fourHexDigits (Nat.lt_trans control (by decide : 32 < 65536))
      have piece : Denotes false _ _ := .code rfl written character.valid
      rwa [Char.ofNat_toNat] at piece
    · exact .plain notEscape
  all_goals exact .letter (by decide)

theorem spells_escapeCharacter (text : List Char) :
    Spells false (text.flatMap Json.escapeCharacter) text := by
  induction text with
  | nil => exact .nil
  | cons character text induction =>
      rw [List.flatMap_cons]
      exact .cons (denotes_escapeCharacter character) induction

/-- The text between two quotes stands for a value if and only if it is made of pieces that
denote its characters, where a plus sign may stand before three digits of a code point. Without
such a sign the pieces are the plain characters, the letters and the four digits alone. However
a text is spelled in these, it is what comes out; as JSON writes it, it is so spelled. -/
theorem unescape_resolves_pieces (body : List Char) :
    (∀ value, unescape body = some value ↔ Spells true body value) ∧
    (¬ ['\\', 'u', '+'] <:+: body →
      ∀ value, unescape body = some value ↔ Spells false body value) ∧
    (∀ value, Spells false body value → unescape body = some value) ∧
    ∀ text, Spells false (text.flatMap Json.escapeCharacter) text ∧
      unescape (text.flatMap Json.escapeCharacter) = some text := by
  have exact (value : List Char) : unescape body = some value ↔ Spells true body value :=
    ⟨spells_of_unescape, unescape_of_spells⟩
  refine ⟨exact, fun unsigned value => ?_, fun value spells => ?_, fun text => ?_⟩
  · rw [exact]
    exact ⟨fun spells => spells.unsigned unsigned, Spells.allow⟩
  · exact (exact value).mpr spells.allow
  · have spells := spells_escapeCharacter text
    exact ⟨spells, unescape_of_spells spells.allow⟩

def escapedCheer : List Char := ['\\', 'u', '0', '0', 'E', '9', '\\', 'n', '!']

theorem cheer_is_spelled : ¬ ['\\', 'u', '+'] <:+: escapedCheer ∧
    unescape escapedCheer = some ['é', '\n', '!'] ∧
    Spells false escapedCheer ['é', '\n', '!'] := by
  have unsigned : ¬ ['\\', 'u', '+'] <:+: escapedCheer := by decide
  have resolved : unescape escapedCheer = some ['é', '\n', '!'] := by decide
  exact ⟨unsigned, resolved, ((unescape_resolves_pieces escapedCheer).2.1 unsigned _).mp resolved⟩

def signedLetter : List Char := ['\\', 'u', '+', '0', '4', '1']

theorem signed_letter_is_resolved : unescape signedLetter = some ['A'] ∧
    ∀ value, ¬ Spells false signedLetter value := by
  refine ⟨by decide, fun value spells => ?_⟩
  generalize whole : signedLetter = body at spells
  cases spells with
  | nil => cases whole
  | @cons piece rest value character denotes more =>
      cases denotes with
      | plain unmarked =>
          cases whole
          exact unmarked rfl
      | letter listed =>
          cases whole
          have found := simpleEscape?_eq_some.mpr listed
          cases found
      | @code digits number four written scalar =>
          match digits, four with
          | [first, second, third, fourth], _ =>
              cases whole
              exact not_writesHex_plus _ _ written
      | signed allowed => cases allowed

end StringLiteral

end GraphQuery
