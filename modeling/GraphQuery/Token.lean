import GraphQuery.Source.Span
import GraphQuery.Source.Location

namespace GraphQuery

/-! The words of a query text. -/

namespace Token

inductive Kind where
  | endOfInput
  | invalid
  | name
  | int
  | float
  | string
  | blockString
  | braceOpen
  | braceClose
  | parenOpen
  | parenClose
  | bracketOpen
  | bracketClose
  | colon
  | spread
  | equals
  | atSign
  | bang
  | dollar
deriving DecidableEq, Repr

namespace Kind

def symbol : Kind → String
  | .endOfInput => "<eof>"
  | .invalid => "<error>"
  | .name => "<name>"
  | .int => "<int>"
  | .float => "<float>"
  | .string => "<string>"
  | .blockString => "<block-string>"
  | .braceOpen => "\x7b"
  | .braceClose => "\x7d"
  | .parenOpen => "("
  | .parenClose => ")"
  | .bracketOpen => "["
  | .bracketClose => "]"
  | .colon => ":"
  | .spread => "..."
  | .equals => "="
  | .atSign => "@"
  | .bang => "!"
  | .dollar => "$"

def startsValue : Kind → Bool
  | .dollar | .name | .int | .float | .string | .blockString | .bracketOpen | .braceOpen => true
  | _ => false

def ofPunctuator? : Char → Option Kind
  | '{' => some .braceOpen
  | '}' => some .braceClose
  | '(' => some .parenOpen
  | ')' => some .parenClose
  | '[' => some .bracketOpen
  | ']' => some .bracketClose
  | ':' => some .colon
  | '=' => some .equals
  | '@' => some .atSign
  | '!' => some .bang
  | '$' => some .dollar
  | _ => none

end Kind

end Token

structure Token where
  kind : Token.Kind
  text : String
  span : Span
  location : Location
deriving DecidableEq

end GraphQuery
