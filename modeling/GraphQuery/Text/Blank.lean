namespace GraphQuery.Text

/-! White space in the sense of the Unicode property of that name. -/

def blankCharacters : List Char :=
  ['\t', '\n', '\x0b', '\x0c', '\x0d', ' ', '\x85', '\u00a0', '\u1680', '\u2000',
   '\u2001', '\u2002', '\u2003', '\u2004', '\u2005', '\u2006', '\u2007', '\u2008',
   '\u2009', '\u200a', '\u2028', '\u2029', '\u202f', '\u205f', '\u3000']

def isBlank (character : Char) : Bool := blankCharacters.contains character

def isBlankLine (line : List Char) : Bool := line.all isBlank

end GraphQuery.Text
