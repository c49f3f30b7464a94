import GraphQuery.Document
import GraphQuery.Document.StringLiteral
import GraphQuery.Number.Digits
import GraphQuery.Number.Word
import GraphQuery.Token.Lexer

namespace GraphQuery

/-! Reading documents and types from tokens. Selection sets, list and object
values and list types may be nested a limited number of levels deep; a parser
for such a thing is given the number of levels that are left. -/

/-! ## Syntax errors -/

inductive Expectation where
  | token (kind : Token.Kind)
  | name
  | keyword (word : String)
  | fragmentName
  | definition
  | value
  | endOfInput
deriving DecidableEq

def Expectation.render : Expectation → String
  | .token kind => kind.symbol
  | .name => "Name"
  | .keyword word => "\"" ++ word ++ "\""
  | .fragmentName => "fragment name"
  | .definition => "definition"
  | .value => "value"
  | .endOfInput => "end of input"

inductive SyntaxFault where
  | unexpected (wanted : Expectation)
  | tooDeep
  | intOutOfRange
  | invalidEscape
deriving DecidableEq

structure SyntaxFailure where
  fault : SyntaxFault
  found : Token
deriving DecidableEq

/-- A failure together with the place where the definition around it begins and
the nesting limit in force. -/
structure SyntaxError where
  failure : SyntaxFailure
  definition : Location
  limit : Nat
deriving DecidableEq

namespace SyntaxError

def renderFound (token : Token) : String :=
  match token.kind with
  | .endOfInput => "end of input"
  | .invalid => "invalid token \"" ++ token.text ++ "\""
  | _ => "\"" ++ token.text ++ "\""

def detail (error : SyntaxError) : String :=
  match error.failure.fault with
  | .unexpected wanted =>
      "Expected " ++ wanted.render ++ ", found " ++ renderFound error.failure.found
  | .tooDeep => s!"Nesting exceeds the recursion limit of {error.limit}"
  | .intOutOfRange => "Int literal out of range"
  | .invalidEscape => "Invalid escape sequence in string"

def message (error : SyntaxError) : String :=
  error.detail ++ " at " ++ error.failure.found.location.render

end SyntaxError

namespace Parser

/-- The token to be read next and those after it. The token that marks the end
of the text has none after it and is never passed. -/
structure Stream where
  current : Token
  following : List Token

def Stream.ofText (text : List Char) : Stream :=
  match Token.tokenize text with
  | current :: following => ⟨current, following⟩
  | [] => ⟨⟨.endOfInput, "", Span.empty 0, Location.start⟩, []⟩

end Parser

abbrev Parser (α : Type) := StateT Parser.Stream (Except SyntaxFailure) α

namespace Parser

/-! ## Single tokens -/

def current : Parser Token := do return (← get).current

def fail {α : Type} (fault : SyntaxFault) : Parser α := do
  throw ⟨fault, ← current⟩

def expected {α : Type} (wanted : Expectation) : Parser α := fail (.unexpected wanted)

def advance : Parser Unit := modify fun stream =>
  match stream.following with
  | next :: following => ⟨next, following⟩
  | [] => stream

def isAt (kind : Token.Kind) : Parser Bool := do
  return (← current).kind == kind

def isAtKeyword (word : String) : Parser Bool := do
  let token ← current
  return token.kind == .name && token.text == word

def accept (kind : Token.Kind) : Parser Bool := do
  if ← isAt kind then
    advance
    return true
  else return false

def expect (kind : Token.Kind) : Parser Unit := do
  unless ← accept kind do expected (.token kind)

def expectKeyword (word : String) : Parser Unit := do
  if ← isAtKeyword word then advance else expected (.keyword word)

def name : Parser Name := do
  let token ← current
  if token.kind = .name then
    advance
    return ⟨token.text, token.span, token.location⟩
  else expected .name

/-- The span of what has been read from a token on: it ends where the token
after it does. -/
def spanFrom (first : Token) : Parser Span := do
  let token ← current
  return ⟨first.span.start, max token.span.stop first.span.start⟩

/-! ## Options and repetition -/

def ifAt {α : Type} (kind : Token.Kind) (parser : Parser α) : Parser (Option α) := do
  if ← isAt kind then some <$> parser else return none

def ifAfter {α : Type} (kind : Token.Kind) (parser : Parser α) : Parser (Option α) := do
  if ← accept kind then some <$> parser else return none

/-- Items for as long as one begins with a token that `here` accepts. Every item
takes at least one token, so the tokens that are left bound their number. -/
def repeatedly {α : Type} (here : Token → Bool) (item : Parser α) : Nat → Parser (List α)
  | 0 => return []
  | bound + 1 => do
      if here (← current) then
        let first ← item
        let others ← repeatedly here item bound
        return first :: others
      else return []

def many {α : Type} (here : Token → Bool) (item : Parser α) : Parser (List α) := do
  repeatedly here item ((← get).following.length + 1)

def manyUntil {α : Type} (closing : Token.Kind) (item : Parser α) : Parser (List α) := do
  let items ← many (fun token => token.kind != closing) item
  expect closing
  return items

def someUntil {α : Type} (closing : Token.Kind) (item : Parser α) : Parser (List α) := do
  let first ← item
  let others ← manyUntil closing item
  return first :: others

/-! ## Literals -/

def intOfText (text : List Char) : Int :=
  match text with
  | '-' :: digits => -(Digits.toNat digits : Int)
  | digits => Digits.toNat digits

def floatOfText (text : List Char) : Binary64 :=
  let (negative, text) := match text with
    | '-' :: rest => (true, rest)
    | rest => (false, rest)
  let (whole, text) := Digits.split text
  let (fraction, text) := match text with
    | '.' :: rest => Digits.split rest
    | rest => ([], rest)
  let exponent : Int := match text with
    | _ :: '+' :: digits => Digits.toNat digits
    | _ :: '-' :: digits => -(Digits.toNat digits : Int)
    | _ :: digits => Digits.toNat digits
    | [] => 0
  Binary64.ofDecimal negative (Digits.toNat (whole ++ fraction)) (exponent - fraction.length)

def between (marks : Nat) (text : String) : List Char :=
  let characters := text.toList.drop marks
  characters.take (characters.length - marks)

def keywordLiteral : String → Literal
  | "true" => .boolean true
  | "false" => .boolean false
  | "null" => .null
  | name => .symbol name

def objectField (value : Parser Literal) : Parser (Name × Literal) := do
  let key ← name
  expect .colon
  return (key, ← value)

/-- A literal, whose items, if the nesting limit leaves room for any level of
them, are read by `inner?`. A constant holds no variables. -/
def literalWith (constant : Bool) (inner? : Option (Parser Literal)) : Parser Literal := do
  let token ← current
  match token.kind with
  | .dollar =>
      if constant then expected .value
      else
        advance
        return .reference (← name)
  | .int =>
      let value := intOfText token.text.toList
      if Word.int64.Fits value then
        advance
        return .int value
      else fail .intOutOfRange
  | .float =>
      advance
      return .float (floatOfText token.text.toList)
  | .string =>
      match StringLiteral.unescape (between 1 token.text) with
      | some value =>
          advance
          return .string (String.ofList value)
      | none => fail .invalidEscape
  | .blockString =>
      advance
      return .string (String.ofList (StringLiteral.blockValue (between 3 token.text)))
  | .bracketOpen =>
      advance
      match inner? with
      | some inner => return .list (← manyUntil .bracketClose inner)
      | none => fail .tooDeep
  | .braceOpen =>
      advance
      match inner? with
      | some inner => return .object (← manyUntil .braceClose (objectField inner))
      | none => fail .tooDeep
  | .name =>
      advance
      return keywordLiteral token.text
  | _ => expected .value

def literal (constant : Bool) : (levels : Nat) → Parser Literal
  | 0 => literalWith constant none
  | levels + 1 => literalWith constant (some (literal constant levels))

/-! ## Types -/

/-- A type, whose items, if the nesting limit leaves room for any level of them,
are read by `inner?`, up to the mark that refuses null. -/
def nullableType (inner? : Option (Parser TypeNode)) : Parser TypeNode := do
  if ← accept .bracketOpen then
    match inner? with
    | some inner =>
        let item ← inner
        expect .bracketClose
        return .list item
    | none => fail .tooDeep
  else
    let base ← name
    return .named base

def typeNodeWith (inner? : Option (Parser TypeNode)) : Parser TypeNode := do
  let type ← nullableType inner?
  if ← accept .bang then return .nonNull type else return type

def typeNode : (levels : Nat) → Parser TypeNode
  | 0 => typeNodeWith none
  | levels + 1 => typeNodeWith (some (typeNode levels))

/-! ## Arguments and directives -/

def argument (levels : Nat) : Parser Argument := do
  let first ← current
  let key ← name
  expect .colon
  let value ← literal false levels
  return ⟨key, value, ← spanFrom first, first.location⟩

def arguments (levels : Nat) : Parser (List Argument) := do
  if ← accept .parenOpen then someUntil .parenClose (argument levels) else return []

def directive (levels : Nat) : Parser Directive := do
  let first ← current
  expect .atSign
  let label ← name
  let values ← arguments levels
  return ⟨label, values, ← spanFrom first, first.location⟩

def directives (levels : Nat) : Parser (List Directive) :=
  many (fun token => token.kind == .atSign) (directive levels)

/-! ## Selections -/

def fieldNames : Parser (Option Name × Name) := do
  let first ← name
  if ← accept .colon then
    let second ← name
    return (some first, second)
  else return (none, first)

def fieldSelection (levels : Nat) (selectionSet : Parser SelectionSet) :
    Parser Selection := do
  let first ← current
  let (label, fieldName) ← fieldNames
  let values ← arguments levels
  let marks ← directives levels
  let set? ← ifAt .braceOpen selectionSet
  let head : FieldHead :=
    ⟨label, fieldName, values, marks, ← spanFrom first, first.location⟩
  match set? with
  | some set => return .branch head set.selections set.span
  | none => return .leaf head

def inlineFragment (levels : Nat) (selectionSet : Parser SelectionSet) (first : Token)
    (condition : Option Name) : Parser Selection := do
  let marks ← directives levels
  let set ← selectionSet
  let head : InlineHead := ⟨condition, marks, ← spanFrom first, first.location⟩
  return .inline head set.selections set.span

def fragmentSelection (levels : Nat) (selectionSet : Parser SelectionSet) (first : Token) :
    Parser Selection := do
  if ← isAtKeyword "on" then
    advance
    let condition ← name
    inlineFragment levels selectionSet first (some condition)
  else if (← isAt .braceOpen) || (← isAt .atSign) then
    inlineFragment levels selectionSet first none
  else
    let fragment ← name
    let marks ← directives levels
    return .spread ⟨fragment, marks, ← spanFrom first, first.location⟩

def selection (levels : Nat) (selectionSet : Parser SelectionSet) : Parser Selection := do
  let first ← current
  if ← accept .spread then fragmentSelection levels selectionSet first
  else fieldSelection levels selectionSet

def selectionSet : (levels : Nat) → Parser SelectionSet
  | 0 => do
      expect .braceOpen
      fail .tooDeep
  | levels + 1 => do
      let first ← current
      expect .braceOpen
      let selections ← someUntil .braceClose (selection levels (selectionSet levels))
      return ⟨selections, ← spanFrom first⟩

/-! ## Definitions -/

def variableDefinition (levels : Nat) : Parser VariableDefinition := do
  let first ← current
  expect .dollar
  let label ← name
  expect .colon
  let type ← typeNode levels
  let default ← ifAfter .equals (literal true levels)
  return ⟨label, type, default, ← spanFrom first, first.location⟩

def variableDefinitions (levels : Nat) : Parser (List VariableDefinition) := do
  if ← accept .parenOpen then someUntil .parenClose (variableDefinition levels) else return []

def shorthandQuery (levels : Nat) : Parser OperationDefinition := do
  let first ← current
  let set ← selectionSet levels
  return ⟨.query, none, [], [], set, ← spanFrom first, first.location⟩

def operation (levels : Nat) (kind : OperationKind) : Parser OperationDefinition := do
  let first ← current
  advance
  let label ← ifAt .name name
  let declared ← variableDefinitions levels
  let marks ← directives levels
  let set ← selectionSet levels
  return ⟨kind, label, declared, marks, set, ← spanFrom first, first.location⟩

def fragment (levels : Nat) : Parser FragmentDefinition := do
  let first ← current
  expectKeyword "fragment"
  if ← isAtKeyword "on" then expected .fragmentName
  else
    let label ← name
    expectKeyword "on"
    let condition ← name
    let marks ← directives levels
    let set ← selectionSet levels
    return ⟨label, condition, marks, set, ← spanFrom first, first.location⟩

def definition (levels : Nat) : Parser Definition := do
  let token ← current
  match token.kind with
  | .braceOpen => .operation <$> shorthandQuery levels
  | .name =>
      match OperationKind.ofKeyword? token.text with
      | some kind => .operation <$> operation levels kind
      | none =>
          if token.text = "fragment" then .fragment <$> fragment levels
          else expected .definition
  | _ => expected .definition

/-! ## Whole texts -/

/-- Definitions up to the end of the text; each takes at least one token. An
error tells where the definition begins in which it was found. -/
def definitions (limit : Nat) : Nat → Stream → Except SyntaxError (List Definition × Stream)
  | 0, stream => .ok ([], stream)
  | bound + 1, stream =>
      if stream.current.kind = .endOfInput then .ok ([], stream)
      else
        match (definition limit).run stream with
        | .error failure => .error ⟨failure, stream.current.location, limit⟩
        | .ok (first, rest) =>
            match definitions limit bound rest with
            | .error error => .error error
            | .ok (others, rest) => .ok (first :: others, rest)

def defaultLimit : Nat := 256

def parseDocument (limit : Nat) (text : List Char) : Except SyntaxError Document :=
  let stream := Stream.ofText text
  match definitions limit (stream.following.length + 1) stream with
  | .error error => .error error
  | .ok (found, rest) =>
      .ok ⟨found, ⟨stream.current.span.start,
        max rest.current.span.stop stream.current.span.start⟩⟩

def wholeType (limit : Nat) : Parser TypeNode := do
  let type ← typeNode limit
  if ← isAt .endOfInput then return type else expected .endOfInput

def parseType (text : List Char) : Except SyntaxError TypeNode :=
  let stream := Stream.ofText text
  match (wholeType defaultLimit).run stream with
  | .error failure => .error ⟨failure, stream.current.location, defaultLimit⟩
  | .ok (type, _) => .ok type

end Parser

def Document.parse (text : String) : Except SyntaxError Document :=
  Parser.parseDocument Parser.defaultLimit text.toList

def TypeNode.parse (text : String) : Except SyntaxError TypeNode :=
  Parser.parseType text.toList

end GraphQuery
