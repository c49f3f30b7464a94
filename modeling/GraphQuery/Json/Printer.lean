import GraphQuery.Json

namespace GraphQuery.Json

/-! The text of a value. Only the quote, the backslash and the control
characters below the space are escaped; every other character stands for
itself. -/

/-- Doubles are written plainly from `0.00001` up to sixteen digits before the
point, and beyond that with a signed exponent. -/
def numberLayout : Decimal.Layout where
  tie := .toEven
  plainFrom := -5
  plainTo := 15
  exponentSign := "+"
  infinity := "null"

def renderFloat (value : Binary64) : String := numberLayout.render value

def fourHexDigits (code : Nat) : List Char :=
  [code / 4096 % 16, code / 256 % 16, code / 16 % 16, code % 16].map Nat.digitChar

def escapeCharacter (character : Char) : List Char :=
  match character with
  | '"' => ['\\', '"']
  | '\\' => ['\\', '\\']
  | '\x08' => ['\\', 'b']
  | '\t' => ['\\', 't']
  | '\n' => ['\\', 'n']
  | '\x0c' => ['\\', 'f']
  | '\r' => ['\\', 'r']
  | other =>
      if other.toNat < 32 then ['\\', 'u'] ++ fourHexDigits other.toNat else [other]

def renderString (text : String) : String :=
  String.ofList ('"' :: text.toList.flatMap escapeCharacter ++ ['"'])

mutual
def render : Json → String
  | .null => "null"
  | .boolean value => if value then "true" else "false"
  | .integer value => toString value
  | .float value => renderFloat value
  | .string value => renderString value
  | .array items => "[" ++ ",".intercalate (renderItems items) ++ "]"
  | .object entries => "\x7b" ++ ",".intercalate (renderEntries entries) ++ "\x7d"

def renderItems : List Json → List String
  | [] => []
  | item :: rest => render item :: renderItems rest

def renderEntries : List (String × Json) → List String
  | [] => []
  | (name, value) :: rest =>
      (renderString name ++ ":" ++ render value) :: renderEntries rest
end

def renderBlock (opening closing : String) (indent : Nat) (elements : List String) :
    String :=
  if elements.isEmpty then opening ++ closing
  else
    let margin (depth : Nat) := "\n" ++ String.ofList (List.replicate (2 * depth) ' ')
    opening ++ margin (indent + 1) ++ ("," ++ margin (indent + 1)).intercalate elements ++
      margin indent ++ closing

mutual
def renderIndented (indent : Nat) : Json → String
  | .array items => renderBlock "[" "]" indent (renderIndentedItems (indent + 1) items)
  | .object entries =>
      renderBlock "\x7b" "\x7d" indent (renderIndentedEntries (indent + 1) entries)
  | leaf => render leaf

def renderIndentedItems (indent : Nat) : List Json → List String
  | [] => []
  | item :: rest => renderIndented indent item :: renderIndentedItems indent rest

def renderIndentedEntries (indent : Nat) : List (String × Json) → List String
  | [] => []
  | (name, value) :: rest =>
      (renderString name ++ ": " ++ renderIndented indent value) ::
        renderIndentedEntries indent rest
end

end GraphQuery.Json
