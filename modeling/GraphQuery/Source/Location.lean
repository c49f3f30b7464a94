namespace GraphQuery

/-! Human-facing positions. Lines end at a line feed and nowhere else; columns
count characters, so a character of several bytes moves a column by one. -/

/-- A line and a column, both counted from 1. -/
structure Location where
  line : Nat
  column : Nat
deriving DecidableEq, Repr

namespace Location

def start : Location := ⟨1, 1⟩

instance : Inhabited Location := ⟨start⟩

def after (location : Location) (character : Char) : Location :=
  if character = '\n' then ⟨location.line + 1, 1⟩
  else ⟨location.line, location.column + 1⟩

def render (location : Location) : String :=
  s!"line {location.line} char {location.column}"

/-! An offset inside a character has no column of its own. It is given the
column that its distance in bytes from the start of the line would have in a
line of one-byte characters. -/

/-- Continues the search for `offset` through `text`, whose first character
stands at `location` and `lineBytes` bytes into its line. -/
def locateFrom (location : Location) (lineBytes : Nat) : List Char → Nat → Location
  | _, 0 => location
  | [], _ + 1 => location
  | character :: rest, offset + 1 =>
    if offset + 1 < character.utf8Size then
      ⟨location.line, lineBytes + offset + 1 + 1⟩
    else
      locateFrom (location.after character)
        (if character = '\n' then 0 else lineBytes + character.utf8Size)
        rest (offset + 1 - character.utf8Size)

def ofOffset (text : List Char) (offset : Nat) : Location :=
  locateFrom start 0 text offset

def lineCount (text : List Char) : Nat := text.count '\n' + 1

end Location

end GraphQuery
