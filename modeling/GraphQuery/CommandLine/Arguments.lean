import GraphQuery.Number.Digits
import GraphQuery.Number.Word

namespace GraphQuery.CommandLine

/-! The arguments of the command line. They are read from left to right. Operands,
and a value in a word of its own, are judged when something else begins or the
arguments end; a value after an equals sign is judged at once. -/

inductive Format where
  | pretty
  | json
deriving DecidableEq, Repr

inductive Command where
  | check (files : List String) (maxDepth : Option Nat)
  | inspect (file : String) (format : Format)
  | version

structure Invocation where
  verbose : Bool
  quiet : Bool
  command : Command

inductive Refusal where
  | help
  | programVersion
  | nothingGiven
  | missingCommand
  | unknownCommand
  | unknownArgument
  | missingOperand
  | missingValue
  | unknownChoice
  | malformedValue
  | repeatedOption
  | unexpectedValue
deriving DecidableEq, Repr

def Refusal.exitCode : Refusal → Nat
  | .help | .programVersion => 0
  | _ => 2

/-! ## Options -/

inductive Scope where
  | program
  | check
  | inspect
  | version
deriving DecidableEq, Repr

inductive Flag where
  | verbose
  | quiet
  | help
  | programVersion
deriving DecidableEq, Repr

inductive Setting where
  | maxDepth
  | format
deriving DecidableEq, Repr

inductive Role where
  | flag (flag : Flag)
  | setting (setting : Setting)
deriving DecidableEq, Repr

namespace Scope

def ofCommand? : String → Option Scope
  | "check" => some .check
  | "inspect" => some .inspect
  | "version" => some .version
  | _ => none

def long? (scope : Scope) (name : String) : Option Role :=
  match scope, name with
  | _, "verbose" => some (.flag .verbose)
  | _, "quiet" => some (.flag .quiet)
  | _, "help" => some (.flag .help)
  | .program, "version" => some (.flag .programVersion)
  | .check, "max-depth" => some (.setting .maxDepth)
  | .inspect, "format" => some (.setting .format)
  | _, _ => none

def short? (scope : Scope) (letter : Char) : Option Flag :=
  match scope, letter with
  | _, 'v' => some .verbose
  | _, 'q' => some .quiet
  | _, 'h' => some .help
  | .program, 'V' => some .programVersion
  | _, _ => none

def acceptsOperand (scope : Scope) (count : Nat) : Bool :=
  match scope with
  | .check => true
  | .inspect => count == 0
  | _ => false

end Scope

/-! ## Reading -/

/-- What was given last and is not judged yet. -/
inductive Pending where
  | nothing
  | value (setting : Setting) (text : Option String)
  | operands
deriving DecidableEq, Repr

structure Draft where
  scope : Scope
  verbose : Bool
  quiet : Bool
  given : List Role
  maxDepth : Option Nat
  format : Option Format
  /-- The operands, the last one first. -/
  operands : List String
  pending : Pending
  /-- Whether everything that follows is an operand. -/
  operandsOnly : Bool

namespace Draft

def initial : Draft where
  scope := .program
  verbose := false
  quiet := false
  given := []
  maxDepth := none
  format := none
  operands := []
  pending := .nothing
  operandsOnly := false

def readCount? (text : String) : Option Nat :=
  let digits := match text.toList with
    | '+' :: rest => rest
    | rest => rest
  if digits.isEmpty || !digits.all Char.isDigit then none
  else if Word.uint64.Fits (Digits.toNat digits) then some (Digits.toNat digits)
  else none

def namesCommand (word : String) : Bool :=
  word == "help" || (Scope.ofCommand? word).isSome

def readFormat? : String → Option Format
  | "pretty" => some .pretty
  | "json" => some .json
  | _ => none

def give (role : Role) (draft : Draft) : Except Refusal Draft :=
  if draft.given.contains role then .error .repeatedOption
  else .ok { draft with given := role :: draft.given }

def assign (setting : Setting) (text : String) (draft : Draft) : Except Refusal Draft := do
  let draft ← draft.give (.setting setting)
  match setting with
  | .maxDepth =>
      match readCount? text with
      | some depth => return { draft with maxDepth := some depth }
      | none => .error .malformedValue
  | .format =>
      match readFormat? text with
      | some format => return { draft with format := some format }
      | none => .error .unknownChoice

/-- Judge what is pending. An option without a value is refused before it counts
as given. -/
def settle (draft : Draft) : Except Refusal Draft :=
  let settled := { draft with pending := .nothing }
  match draft.pending with
  | .nothing => .ok draft
  | .value _ none => .error .missingValue
  | .value setting (some text) => settled.assign setting text
  | .operands => if draft.operands.contains "" then .error .missingValue else .ok settled

def setFlag (flag : Flag) (draft : Draft) : Except Refusal Draft := do
  let draft ← draft.settle
  let draft ← draft.give (.flag flag)
  match flag with
  | .verbose => return { draft with verbose := true }
  | .quiet => return { draft with quiet := true }
  | .help => .error .help
  | .programVersion => .error .programVersion

def setFlags (draft : Draft) : List Char → Except Refusal Draft
  | [] => .ok draft
  | letter :: rest =>
      match draft.scope.short? letter with
      | some flag => do setFlags (← draft.setFlag flag) rest
      | none => .error .unknownArgument

def setLong (name : String) (value : Option String) (draft : Draft) :
    Except Refusal Draft :=
  match draft.scope.long? name with
  | none => .error .unknownArgument
  | some (.flag flag) =>
      if value.isSome then .error .unexpectedValue else draft.setFlag flag
  | some (.setting setting) => do
      let draft ← draft.settle
      match value with
      | some text => draft.assign setting text
      | none => return { draft with pending := .value setting none }

def addOperand (text : String) (draft : Draft) : Except Refusal Draft := do
  if draft.scope.acceptsOperand draft.operands.length then
    let draft ← if draft.pending = .operands then pure draft else draft.settle
    return { draft with operands := text :: draft.operands, pending := .operands }
  else .error .unknownArgument

/-- The name of a command, which opens its own scope. It cannot stand where only
operands are expected. -/
def enter (word : String) (draft : Draft) : Except Refusal Draft :=
  if draft.operandsOnly ∧ namesCommand word then .error .unknownArgument
  else match Scope.ofCommand? word with
    | some scope => .ok { draft with scope := scope, given := [] }
    | none => .error .unknownCommand

def addWord (word : String) (draft : Draft) : Except Refusal Draft :=
  match draft.pending, draft.operandsOnly with
  | .value setting none, false =>
      .ok { draft with pending := .value setting (some word) }
  | _, _ =>
      match draft.scope with
      | .program => draft.enter word
      | _ => draft.addOperand word

def add (word : String) (draft : Draft) : Except Refusal Draft :=
  if draft.operandsOnly then draft.addWord word
  else match word.toList with
    | ['-', '-'] => .ok { draft with operandsOnly := true }
    | '-' :: '-' :: rest =>
        let name := String.ofList (rest.takeWhile (· != '='))
        match rest.dropWhile (· != '=') with
        | _ :: value => draft.setLong name (some (String.ofList value))
        | [] => draft.setLong name none
    | '-' :: letter :: rest => draft.setFlags (letter :: rest)
    | _ => draft.addWord word

def addAll (draft : Draft) : List String → Except Refusal Draft
  | [] => draft.settle
  | word :: rest =>
      if word = "help" ∧ draft.scope = .program ∧ draft.operandsOnly = false then
        match rest with
        | [] => .error .help
        | [topic] =>
            if namesCommand topic then .error .help
            else .error .unknownCommand
        | _ => .error .unknownCommand
      else do addAll (← draft.add word) rest

def finish (draft : Draft) : Except Refusal Invocation := do
  let command ← match draft.scope, draft.operands.reverse with
    | .program, _ => .error (if draft.given.isEmpty then .nothingGiven else .missingCommand)
    | .version, _ => .ok .version
    | .check, [] => .error .missingOperand
    | .check, files => .ok (.check files draft.maxDepth)
    | .inspect, [] => .error .missingOperand
    | .inspect, file :: _ => .ok (.inspect file (draft.format.getD .pretty))
  return ⟨draft.verbose, draft.quiet, command⟩

end Draft

def Invocation.read (arguments : List String) : Except Refusal Invocation := do
  let draft ← Draft.initial.addAll arguments
  draft.finish

end GraphQuery.CommandLine
