import GraphQuery.Number.Digits
import GraphQuery.Text.Blank

namespace GraphQuery.StringLiteral

/-! What string literals stand for. -/

/-! ## Quoted strings -/

def simpleEscape? : Char → Option Char
  | '"' => some '"'
  | '\\' => some '\\'
  | '/' => some '/'
  | 'b' => some '\x08'
  | 'f' => some '\x0c'
  | 'n' => some '\n'
  | 'r' => some '\x0d'
  | 't' => some '\t'
  | _ => none

/-- A code point in four places, the first of which may hold a plus sign instead
of a digit. -/
def codePoint? (first : Char) (others : List Char) : Option Nat :=
  if first = '+' then Digits.appendHex? 0 others
  else Digits.appendHex? 0 (first :: others)

def scalar? (code : Nat) : Option Char :=
  if code.isValidChar then some (Char.ofNat code) else none

def unescape : List Char → Option (List Char)
  | [] => some []
  | '\\' :: 'u' :: first :: second :: third :: fourth :: rest =>
      match (codePoint? first [second, third, fourth]).bind scalar? with
      | some character => (unescape rest).map (character :: ·)
      | none => none
  | '\\' :: letter :: rest =>
      match simpleEscape? letter with
      | some character => (unescape rest).map (character :: ·)
      | none => none
  | ['\\'] => none
  | character :: rest => (unescape rest).map (character :: ·)

/-! ## Block strings -/

def unescapeQuotes : List Char → List Char
  | [] => []
  | '\\' :: '"' :: '"' :: '"' :: rest => '"' :: '"' :: '"' :: unescapeQuotes rest
  | character :: rest => character :: unescapeQuotes rest

/-- Split at line feeds, taking a carriage return before one as part of it. What
follows the last line feed is a line only if it is not empty. The characters of
the line that has begun are held in reverse. -/
def linesFrom (begun : List Char) : List Char → List (List Char)
  | [] => if begun.isEmpty then [] else [begun.reverse]
  | '\n' :: rest =>
      (match begun with
        | '\x0d' :: begun => begun.reverse
        | begun => begun.reverse) :: linesFrom [] rest
  | character :: rest => linesFrom (character :: begun) rest

def lines (text : List Char) : List (List Char) := linesFrom [] text

def isIndent (character : Char) : Bool := character == ' ' || character == '\t'

def indentWidth (line : List Char) : Nat := (line.takeWhile isIndent).length

def commonIndent (lines : List (List Char)) : Nat :=
  (((lines.filter fun line => !Text.isBlankLine line).map indentWidth).min?).getD 0

/-- Drop a width in bytes from the front of a line. A line that is too short, or
in which the width ends inside a character, is left empty. -/
def dropWidth : Nat → List Char → List Char
  | 0, line => line
  | _ + 1, [] => []
  | width + 1, character :: rest =>
      if character.utf8Size ≤ width + 1 then
        dropWidth (width + 1 - character.utf8Size) rest
      else []

def dropOuterBlankLines (lines : List (List Char)) : List (List Char) :=
  ((lines.dropWhile Text.isBlankLine).reverse.dropWhile Text.isBlankLine).reverse

/-- The value of the text between triple quotes: lines without the indentation
that those after the first share, and without blank lines at either end. -/
def blockValue (text : List Char) : List Char :=
  match lines (unescapeQuotes text) with
  | [] => []
  | first :: others =>
      let indent := commonIndent others
      ['\n'].intercalate (dropOuterBlankLines (first :: others.map (dropWidth indent)))

end GraphQuery.StringLiteral
