import GraphQuery.Token

namespace GraphQuery.Token

/-! Splitting a text into tokens. A scanner looks at the text that is left and
says which kind of token stands there and how many characters it takes; it
never fails, since what fits no kind is an invalid token of its own. The spans of
tokens are exact for texts shorter than `2 ^ 32` bytes. -/

/-! ## What lies between tokens -/

def byteOrderMark : Char := '\ufeff'

def isIgnored (character : Char) : Bool :=
  character == ' ' || character == '\t' || character == '\n' || character == '\x0d' ||
    character == ',' || character == byteOrderMark

/-- The number of characters before the next token. A comment runs from its mark
to the end of the line. -/
def ignoredLength : (comment : Bool) → List Char → Nat
  | _, [] => 0
  | true, character :: rest =>
      ignoredLength (character != '\n') rest + 1
  | false, character :: rest =>
      if character == '#' then ignoredLength true rest + 1
      else if isIgnored character then ignoredLength false rest + 1
      else 0

/-! ## The kinds of tokens

Each scanner gives a kind and a number of characters. -/

def isNameStart (character : Char) : Bool :=
  character.isAlpha || character == '_'

def isNamePart (character : Char) : Bool :=
  character.isAlphanum || character == '_'

def runLength (within : Char → Bool) (text : List Char) : Nat :=
  (text.takeWhile within).length

def after (count : Nat) (scan : Kind × Nat) : Kind × Nat := (scan.1, count + scan.2)

/-- A number must not run into a name, a further point or a further number. -/
def numberEnd (kind : Kind) (text : List Char) : Kind × Nat :=
  match text with
  | next :: _ => if isNameStart next || next == '.' then (.invalid, 0) else (kind, 0)
  | [] => (kind, 0)

def digitsThen (next : List Char → Kind × Nat) (text : List Char) : Kind × Nat :=
  let count := runLength Char.isDigit text
  if count = 0 then (.invalid, 0) else after count (next (text.drop count))

def signThen (next : List Char → Kind × Nat) (text : List Char) : Kind × Nat :=
  match text with
  | '+' :: rest => after 1 (next rest)
  | '-' :: rest => after 1 (next rest)
  | rest => next rest

def scanExponent (kind : Kind) (text : List Char) : Kind × Nat :=
  match text with
  | mark :: rest =>
      if mark == 'e' || mark == 'E' then
        after 1 (signThen (digitsThen (numberEnd .float)) rest)
      else numberEnd kind text
  | [] => numberEnd kind text

def scanFraction (text : List Char) : Kind × Nat :=
  match text with
  | '.' :: rest => after 1 (digitsThen (scanExponent .float) rest)
  | rest => scanExponent .int rest

def scanUnsigned (text : List Char) : Kind × Nat :=
  match text with
  | '0' :: rest =>
      match rest with
      | next :: _ => if next.isDigit then (.invalid, 1) else after 1 (scanFraction rest)
      | [] => after 1 (scanFraction rest)
  | rest => digitsThen scanFraction rest

/-- What is left of a string after its opening quote. A backslash takes the next
character with it, whichever it is. -/
def scanString : List Char → Kind × Nat
  | [] => (.invalid, 0)
  | '"' :: _ => (.string, 1)
  | '\n' :: _ => (.invalid, 0)
  | '\x0d' :: _ => (.invalid, 0)
  | '\\' :: _ :: rest => after 2 (scanString rest)
  | _ :: rest => after 1 (scanString rest)

def scanBlockString : List Char → Kind × Nat
  | [] => (.invalid, 0)
  | '"' :: '"' :: '"' :: _ => (.blockString, 3)
  | '\\' :: '"' :: '"' :: '"' :: rest => after 4 (scanBlockString rest)
  | _ :: rest => after 1 (scanBlockString rest)

/-- The token that begins with the character `first`: its kind, and the number
of characters after the first that belong to it. -/
def scan (first : Char) (rest : List Char) : Kind × Nat :=
  match Kind.ofPunctuator? first with
  | some kind => (kind, 0)
  | none =>
      if first == '.' then
        match rest with
        | '.' :: '.' :: _ => (.spread, 2)
        | _ => (.invalid, 0)
      else if first == '"' then
        match rest with
        | '"' :: '"' :: body => after 2 (scanBlockString body)
        | body => scanString body
      else if first == '-' then scanUnsigned rest
      else if first.isDigit then
        let (kind, count) := scanUnsigned (first :: rest)
        (kind, count - 1)
      else if isNameStart first then (.name, runLength isNamePart rest)
      else (.invalid, 0)

/-! ## From text to tokens -/

structure Cursor where
  offset : Nat
  location : Location
  rest : List Char

namespace Cursor

def ofText (text : List Char) : Cursor := ⟨0, Location.start, text⟩

def advance : Nat → Cursor → Cursor
  | 0, cursor => cursor
  | count + 1, ⟨offset, location, rest⟩ =>
      match rest with
      | [] => ⟨offset, location, []⟩
      | character :: rest =>
          advance count ⟨offset + character.utf8Size, location.after character, rest⟩

theorem rest_advance (count : Nat) (cursor : Cursor) :
    (cursor.advance count).rest = cursor.rest.drop count := by
  induction count generalizing cursor with
  | zero => rfl
  | succ count induction =>
      obtain ⟨offset, location, rest⟩ := cursor
      cases rest with
      | nil => rfl
      | cons character rest => simp [advance, induction]

def skipIgnored (cursor : Cursor) : Cursor :=
  cursor.advance (ignoredLength false cursor.rest)

theorem length_skipIgnored (cursor : Cursor) :
    cursor.skipIgnored.rest.length ≤ cursor.rest.length := by
  simp only [skipIgnored, rest_advance, List.length_drop]
  omega

end Cursor

/-- The tokens from a place on. The last one marks the end of the text, and no
other does. -/
def tokensFrom (cursor : Cursor) : List Token :=
  let start := cursor.skipIgnored
  match _found : start.rest with
  | [] => [⟨.endOfInput, "", Span.empty start.offset, start.location⟩]
  | first :: rest =>
      let (kind, more) := scan first rest
      let stop := start.advance (more + 1)
      ⟨kind, String.ofList (first :: rest.take more), ⟨start.offset, stop.offset⟩,
          start.location⟩ :: tokensFrom stop
termination_by cursor.rest.length
decreasing_by
  have bound := cursor.length_skipIgnored
  have stopRest := Cursor.rest_advance (more + 1) start
  simp only [start, _found, List.length_cons] at bound stopRest
  simp only [stopRest, List.drop_succ_cons, List.length_drop]
  omega

def tokenize (text : List Char) : List Token := tokensFrom (Cursor.ofText text)

end GraphQuery.Token
