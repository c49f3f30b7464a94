import GraphQuery.Json
import GraphQuery.Number.Digits

namespace GraphQuery.Json.Reading

/-! Reading JSON text. A reader takes the text that is left and gives a value
together with what follows it, or nothing if the text is malformed. -/

abbrev Reader (α : Type) := List Char → Option (α × List Char)

def isSpace (character : Char) : Bool :=
  character == ' ' || character == '\n' || character == '\t' || character == '\r'

def skipSpaces (text : List Char) : List Char := text.dropWhile isSpace

/-! ## Numbers -/

def wordOfDigits (number : Nat) : List Char → Nat × List Char
  | [] => (number, [])
  | digit :: rest =>
      if Word.uint64.Fits (number * 10 + Digits.value digit : Nat) then
        wordOfDigits (number * 10 + Digits.value digit) rest
      else (number, digit :: rest)

/-- Multiply or divide by a power of ten with one rounding. Beyond the powers
that are doubles, division proceeds in steps. A product beyond every double is
refused. -/
def scaleByTen (negative : Bool) : Nat → Binary64 → Int → Option Binary64
  | steps, value, exponent =>
      match value.magnitude? with
      | none => none
      | some magnitude =>
          let power (exponent : Nat) : Fraction :=
            match (Binary64.ofInt (Nat.pow 10 exponent)).magnitude? with
            | some power => power
            | none => ⟨1, 1⟩
          if exponent.natAbs ≤ 308 then
            let scaled :=
              if exponent < 0 then magnitude.div (power exponent.natAbs)
              else magnitude.mul (power exponent.natAbs)
            let result := Binary64.ofFraction negative scaled
            if result.isFinite then some result else none
          else if value.isZero then some (Binary64.zero negative)
          else if 0 < exponent then none
          else match steps with
            | 0 => some (Binary64.zero negative)
            | steps + 1 =>
                scaleByTen negative steps
                  (Binary64.ofFraction negative (magnitude.div (power 308))) (exponent + 308)

/-- A number with a point or an exponent. The digits are cut to 64 bits and the
power of ten is applied to the rounded result, so a long number may differ from
the nearest double in its last place. -/
def floatOfParts (negative : Bool) (whole fraction : List Char) (exponent : Int) :
    Option Binary64 :=
  let (number, dropped) := wordOfDigits 0 whole
  let (significand, beyond) := wordOfDigits number fraction
  scaleByTen negative 4 (Binary64.ofInt significand)
    (exponent + dropped.length - (fraction.length - beyond.length : Nat))

def exponent : Reader (Bool × Int)
  | mark :: rest =>
      if mark == 'e' || mark == 'E' then
        let (sign, rest) : Int × List Char := match rest with
          | '+' :: rest => (1, rest)
          | '-' :: rest => (-1, rest)
          | rest => (1, rest)
        let (digits, rest) := Digits.split rest
        if digits.isEmpty then none
        else some ((true, sign * Digits.toNat digits), rest)
      else some ((false, 0), mark :: rest)
  | [] => some ((false, 0), [])

def fraction : Reader (List Char)
  | '.' :: rest =>
      let (digits, rest) := Digits.split rest
      if digits.isEmpty then none else some (digits, rest)
  | rest => some ([], rest)

/-- A number without point and exponent is whole if it fits 64 bits, signed when
negative; minus zero is a double. -/
def wholeNumber (negative : Bool) (digits : List Char) : Option Json :=
  let value : Int := Digits.toNat digits
  if negative then
    if 0 < value ∧ Word.int64.Fits (-value) then some (.integer (-value))
    else (floatOfParts true digits [] 0).map .float
  else if Word.uint64.Fits value then some (.integer value)
  else (floatOfParts false digits [] 0).map .float

def number : Reader Json := fun text => do
  let (negative, text) := match text with
    | '-' :: rest => (true, rest)
    | rest => (false, rest)
  let (whole, text) := Digits.split text
  if whole.isEmpty || (whole.head? == some '0' && 1 < whole.length) then none
  else
    let (decimals, text) ← fraction text
    let ((marked, power), text) ← exponent text
    if decimals.isEmpty && !marked then
      let value ← wholeNumber negative whole
      return (value, text)
    else
      let value ← floatOfParts negative whole decimals power
      return (.float value, text)

/-! ## Strings -/

def fourHex : Reader Nat
  | a :: b :: c :: d :: rest =>
      (Digits.appendHex? 0 [a, b, c, d]).map fun code => (code, rest)
  | _ => none

def unicodeEscape : Reader Char := fun text => do
  let (code, text) ← fourHex text
  if 0xd800 ≤ code ∧ code < 0xdc00 then
    match text with
    | '\\' :: 'u' :: text =>
        let (low, text) ← fourHex text
        if 0xdc00 ≤ low ∧ low < 0xe000 then
          return (Char.ofNat (0x10000 + (code - 0xd800) * 0x400 + (low - 0xdc00)), text)
        else none
    | _ => none
  else if 0xdc00 ≤ code ∧ code < 0xe000 then none
  else return (Char.ofNat code, text)

def escape : Reader Char
  | '"' :: rest => some ('"', rest)
  | '\\' :: rest => some ('\\', rest)
  | '/' :: rest => some ('/', rest)
  | 'b' :: rest => some ('\x08', rest)
  | 'f' :: rest => some ('\x0c', rest)
  | 'n' :: rest => some ('\n', rest)
  | 'r' :: rest => some ('\x0d', rest)
  | 't' :: rest => some ('\t', rest)
  | 'u' :: rest => unicodeEscape rest
  | _ => none

/-- The characters up to the closing quote; each step takes at least one
character of the text, whose length is therefore enough `steps`. -/
def stringBody : (steps : Nat) → (collected : List Char) → Reader String
  | 0, _, _ => none
  | steps + 1, collected, text =>
      match text with
      | '"' :: rest => some (String.ofList collected.reverse, rest)
      | '\\' :: rest =>
          match escape rest with
          | some (character, rest) => stringBody steps (character :: collected) rest
          | none => none
      | character :: rest =>
          if character.toNat < 32 then none
          else stringBody steps (character :: collected) rest
      | [] => none

def quoted : Reader String
  | '"' :: rest => stringBody (rest.length + 1) [] rest
  | _ => none

/-! ## Values -/

def keyword (word : List Char) (value : Json) : Reader Json := fun text =>
  if word.isPrefixOf text then some (value, text.drop word.length) else none

def separated {α : Type} (closing : Char) (element : Reader α) :
    (steps : Nat) → (collected : List α) → Reader (List α)
  | 0, _, _ => none
  | steps + 1, collected, text => do
      let (value, text) ← element (skipSpaces text)
      match skipSpaces text with
      | ',' :: rest => separated closing element steps (value :: collected) rest
      | mark :: rest =>
          if mark == closing then return ((value :: collected).reverse, rest) else none
      | [] => none

def bracketed {α : Type} (closing : Char) (element : Reader α) : Reader (List α) :=
  fun text =>
    match skipSpaces text with
    | mark :: rest =>
        if mark == closing then some ([], rest)
        else separated closing element (rest.length + 1) [] (mark :: rest)
    | [] => none

def entry (value : Reader Json) : Reader (String × Json) := fun text => do
  let (name, text) ← quoted text
  match skipSpaces text with
  | ':' :: rest =>
      let (value, rest) ← value (skipSpaces rest)
      return ((name, value), rest)
  | _ => none

def value : (levels : Nat) → Reader Json
  | 0, _ => none
  | levels + 1, text =>
      match text with
      | '"' :: _ => (quoted text).map fun (text, rest) => (.string text, rest)
      | '[' :: rest =>
          (bracketed ']' (value levels) rest).map fun (items, rest) => (.array items, rest)
      | '{' :: rest =>
          (bracketed '}' (entry (value levels)) rest).map fun (entries, rest) =>
            (.object (Entries.ofList entries), rest)
      | 't' :: _ => keyword "true".toList (.boolean true) text
      | 'f' :: _ => keyword "false".toList (.boolean false) text
      | 'n' :: _ => keyword "null".toList .null text
      | _ => number text

end GraphQuery.Json.Reading

namespace GraphQuery.Json

def parse? (text : String) : Option Json := do
  let characters := text.toList
  let (value, rest) ← Reading.value (characters.length + 1) (Reading.skipSpaces characters)
  if (Reading.skipSpaces rest).isEmpty then return value else none

end GraphQuery.Json
