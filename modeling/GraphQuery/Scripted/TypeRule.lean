import GraphQuery.Schema.Definition

namespace GraphQuery.Scripted

/-! Rules that name the object type of a value. -/

inductive TypeRule where
  | entry (key : String)
  | constant (name : String)
  /-- One name if the value has an entry, and another if it has not. -/
  | presence (key : String) (present : String) (absent : String)
  | contextEntry (key : String)
  | unknown
deriving DecidableEq, Repr

def TypeRule.resolver : TypeRule → TypeResolver
  | .entry key => fun value _ => (value.entry? key).bind Json.asString?
  | .constant name => fun _ _ => some name
  | .presence key present absent => fun value _ =>
      if (value.entry? key).isSome then some present else some absent
  | .contextEntry key => fun _ context =>
      (Entries.get? key context).bind Json.asString?
  | .unknown => fun _ _ => none

end GraphQuery.Scripted
