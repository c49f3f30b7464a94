import GraphQuery.Resolver.Reading
import GraphQuery.Response
import GraphQuery.Schema.Definition

namespace GraphQuery

/-! Resolvers find the values of fields. A resolver is called with what it needs
to know and answers at last; before that it may wait, and it may look at and
change a state that it shares with all resolvers of a request. -/

inductive ResolverFault where
  | missingArgument (name : String)
  | malformedArgument (name : String) (reason : Mismatch)
  | timeout (milliseconds : Nat)
  | custom (message : String)
  | internal (message : String)

def ResolverFault.message : ResolverFault → String
  | .missingArgument name => "Missing required argument: " ++ name
  | .malformedArgument name reason =>
      "Failed to parse argument '" ++ name ++ "': " ++ reason.message
  | .timeout milliseconds => s!"Field resolution timed out after {milliseconds}ms"
  | .custom message => message
  | .internal message => "Internal error: " ++ message

/-! ## Calls -/

abbrev Arguments := Entries Json

namespace Arguments

def read? (arguments : Arguments) (name : String) (form : Form) : Option Json :=
  match Entries.get? name arguments with
  | none => none
  | some .null => none
  | some value => (form.read value).toOption

def require (arguments : Arguments) (name : String) (form : Form) :
    Except ResolverFault Json :=
  match Entries.get? name arguments with
  | none => .error (.missingArgument name)
  | some .null => .error (.missingArgument name)
  | some value =>
      match form.read value with
      | .ok value => .ok value
      | .error reason => .error (.malformedArgument name reason)

end Arguments

structure FieldCall where
  parent : Json
  arguments : Arguments
  context : Context
  field : String
  parentType : String
  returnType : TypeRef
  path : Path

/-! ## Resolutions -/

/-- What all resolvers of a request share. A request that is cancelled calls no
further resolvers, and stays cancelled. -/
structure Shared (σ : Type) where
  state : σ
  cancelled : Bool

/-- What happens from a call on until there is an answer. -/
inductive Resolution (σ : Type) where
  | answer (result : Except ResolverFault Json)
  /-- Change the state, and go on with a look at what is shared. -/
  | perform (effect : σ → σ) (next : Shared σ → Resolution σ)
  | cancel (next : Resolution σ)
  | pause (milliseconds : Nat) (next : Resolution σ)

namespace Resolution

variable {σ : Type}

/-- Allow a resolution `limit` milliseconds of waiting out of the `total` that it
was given. -/
def withinRest (total : Nat) : (limit : Nat) → Resolution σ → Resolution σ
  | _, .answer result => .answer result
  | limit, .perform effect next =>
      .perform effect fun shared => withinRest total limit (next shared)
  | limit, .cancel next => .cancel (withinRest total limit next)
  | limit, .pause milliseconds next =>
      if milliseconds ≤ limit then
        .pause milliseconds (withinRest total (limit - milliseconds) next)
      else .pause limit (.answer (.error (.timeout total)))

/-- Give up a resolution that waits for longer than `limit` milliseconds. What it
would have done later does not happen. -/
def within (limit : Nat) (resolution : Resolution σ) : Resolution σ :=
  withinRest limit limit resolution

end Resolution

abbrev Resolver (σ : Type) := FieldCall → Resolution σ

namespace Resolver

variable {σ : Type}

def pure (answer : FieldCall → Except ResolverFault Json) : Resolver σ :=
  fun call => .answer (answer call)

/-- Take the value from the entry of the parent that has the field's name. -/
def ofParent : Resolver σ := pure fun call =>
  .ok ((call.parent.entry? call.field).getD .null)

end Resolver

end GraphQuery
