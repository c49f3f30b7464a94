namespace GraphQuery.Digits

/-! Numbers written in digits, most significant first. -/

def value (digit : Char) : Nat := digit.toNat - '0'.toNat

def append (number : Nat) (digits : List Char) : Nat :=
  digits.foldl (fun number digit => number * 10 + value digit) number

def toNat (digits : List Char) : Nat := append 0 digits

def split (text : List Char) : List Char × List Char :=
  (text.takeWhile Char.isDigit, text.dropWhile Char.isDigit)

theorem split_append (text : List Char) : (split text).1 ++ (split text).2 = text :=
  List.takeWhile_append_dropWhile

def hexValue? (character : Char) : Option Nat :=
  if character.isDigit then some (character.toNat - '0'.toNat)
  else if 'a' ≤ character ∧ character ≤ 'f' then some (character.toNat - 'a'.toNat + 10)
  else if 'A' ≤ character ∧ character ≤ 'F' then some (character.toNat - 'A'.toNat + 10)
  else none

def appendHex? (number : Nat) : List Char → Option Nat
  | [] => some number
  | character :: rest =>
      match hexValue? character with
      | some digit => appendHex? (number * 16 + digit) rest
      | none => none

end GraphQuery.Digits
