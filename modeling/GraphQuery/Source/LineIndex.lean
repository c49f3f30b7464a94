import GraphQuery.Source.Location

namespace GraphQuery

/-! Looking up many locations of one text. Where its lines begin is listed once; a
location is then found by searching that list for the line and counting the
characters from its start. As with spans, texts are taken to be shorter than
`2 ^ 32` bytes; lines and columns are then below that bound as well. -/

/-- A text together with the byte offsets at which its lines begin. -/
structure LineIndex where
  text : String
  starts : Array Nat

namespace LineIndex

def startsFrom (position : Nat) : List Char → List Nat
  | [] => []
  | character :: rest =>
      let next := position + character.utf8Size
      if character = '\n' then next :: startsFrom next rest else startsFrom next rest

def ofText (text : String) : LineIndex :=
  ⟨text, (0 :: startsFrom 0 text.toList).toArray⟩

def lineCount (index : LineIndex) : Nat := index.starts.size

/-- Of the lines from `low` on and before `high`, the last that begins no later than
`offset`, if line `low` does. -/
def lastBegun (starts : Array Nat) (offset low high : Nat) : Nat :=
  if low + 1 < high then
    let middle := (low + high) / 2
    if starts.getD middle 0 ≤ offset then lastBegun starts offset middle high
    else lastBegun starts offset low middle
  else low
termination_by high - low

def cutAt? : Nat → List Char → Option (List Char × List Char)
  | 0, text => some ([], text)
  | _ + 1, [] => none
  | offset + 1, character :: rest =>
      if character.utf8Size ≤ offset + 1 then
        (cutAt? (offset + 1 - character.utf8Size) rest).map fun (front, back) =>
          (character :: front, back)
      else none

def between? (text : List Char) (start stop : Nat) : Option (List Char) := do
  let (_, rest) ← cutAt? start text
  let (part, _) ← cutAt? (stop - start) rest
  return part

/-- How far an offset is from the start of its line, in characters if these can be
counted and in bytes if not. -/
def distance (text : List Char) (start offset : Nat) : Nat :=
  match between? text start offset with
  | some characters => characters.length
  | none => offset - start

def location (index : LineIndex) (offset : Nat) : Location :=
  let offset := min offset index.text.utf8ByteSize
  let line := lastBegun index.starts offset 0 index.lineCount
  ⟨line + 1, distance index.text.toList (index.starts.getD line 0) offset + 1⟩

end LineIndex

end GraphQuery
