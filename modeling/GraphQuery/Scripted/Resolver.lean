import GraphQuery.Resolver

namespace GraphQuery.Scripted

/-! Resolvers that are given as data. Each keeps a log of its calls. -/

inductive Behavior where
  | constant (value : Json)
  | failure (message : String)
  | internalFailure (message : String)
  | argument (name : String)
  | allArguments
  | requirement (name : String) (form : Form)
  | parent (key : Option String)
  | contextEntry (key : String)
  | description
  /-- The rows whose entry equals an argument: the first of them, or all. -/
  | search (rows : List Json) (key : String) (argument : String) (many : Bool)
  | counter
  | cancellation (value : Json)

structure Script where
  behavior : Behavior
  delay : Nat

inductive LogEntry where
  | called (call : FieldCall)
  | resumed (path : Path)

structure State where
  /-- The entries so far, the last one first. -/
  log : List LogEntry
  counter : Int
  cancelled : Bool
  /-- Whether the request goes on regardless of that. -/
  detached : Bool

namespace State

def initial : State := ⟨[], 0, false, false⟩

def note (entry : LogEntry) (state : State) : State :=
  { state with log := entry :: state.log }

end State

namespace Behavior

def describe (call : FieldCall) : Json :=
  .object
    [("field", .string call.field), ("parent", .string call.parentType),
      ("type", .string call.returnType.render),
      ("path", .array (call.path.map PathSegment.toJson))]

def search? (rows : List Json) (key : String) (wanted : Json) (many : Bool) : Json :=
  let found := rows.filter fun row =>
    match row.entry? key with
    | some value => value.sameValue wanted
    | none => false
  if many then .array found else found.head?.getD .null

def step (call : FieldCall) : Int :=
  ((Entries.get? "by" call.arguments).bind Json.asInt64?).getD 1

def argumentOrNull (call : FieldCall) (name : String) : Json :=
  (Entries.get? name call.arguments).getD .null

def resolution (behavior : Behavior) (call : FieldCall) : Resolution State :=
  match behavior with
  | .constant value => .answer (.ok value)
  | .failure message => .answer (.error (.custom message))
  | .internalFailure message => .answer (.error (.internal message))
  | .argument name => .answer (.ok (argumentOrNull call name))
  | .allArguments => .answer (.ok (.object call.arguments))
  | .requirement name form => .answer (call.arguments.require name form)
  | .parent (some key) => .answer (.ok ((call.parent.entry? key).getD .null))
  | .parent none => .answer (.ok call.parent)
  | .contextEntry key => .answer (.ok ((Entries.get? key call.context).getD .null))
  | .description => .answer (.ok (describe call))
  | .search rows key wanted many =>
      .answer (.ok (search? rows key (argumentOrNull call wanted) many))
  | .counter =>
      .perform
        (fun state => { state with counter := Word.int64.wrap (state.counter + step call) })
        fun shared => .answer (.ok (.integer shared.state.counter))
  | .cancellation value =>
      .perform (fun state => { state with cancelled := true }) fun shared =>
        if shared.state.detached then .answer (.ok value) else .cancel (.answer (.ok value))

end Behavior

/-- Log the call, wait, log that the wait is over, and behave as scripted. -/
def Script.resolver (script : Script) : Resolver State := fun call =>
  .perform (State.note (.called call)) fun _ =>
    if script.delay = 0 then script.behavior.resolution call
    else
      .pause script.delay
        (.perform (State.note (.resumed call.path)) fun _ => script.behavior.resolution call)

end GraphQuery.Scripted
