import GraphQuery.Text.Visible

namespace GraphQuery.Text

/-! Text in double quotes on one line, in which every character can be told
apart: what has no visible mark is written as its code point in braces. -/

def hexDigits (value : Nat) : List Char := Nat.toDigits 16 value

def quoteCharacter (character : Char) : List Char :=
  match character with
  | '"' => ['\\', '"']
  | '\\' => ['\\', '\\']
  | '\t' => ['\\', 't']
  | '\r' => ['\\', 'r']
  | '\n' => ['\\', 'n']
  | '\x00' => ['\\', '0']
  | other =>
      if isVisible other then [other]
      else ['\\', 'u', '{'] ++ hexDigits other.toNat ++ ['}']

def quoteBody (text : List Char) : List Char := text.flatMap quoteCharacter

def quote (text : String) : String :=
  String.ofList ('"' :: quoteBody text.toList ++ ['"'])

end GraphQuery.Text
