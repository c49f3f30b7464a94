import GraphQuery.Coercion.Variables
import GraphQuery.Selection.Fault

namespace GraphQuery

/-! Conditions on selections. -/

def Directive.condition? (directive : Directive) : Option Bool :=
  match directive.name.text with
  | "skip" => some false
  | "include" => some true
  | _ => none

def Directive.given? (bindings : Variables) (directive : Directive) : Option Bool :=
  (Argument.find? "if" directive.arguments).bind fun argument =>
    (argument.value.toJson bindings).asBool?

/-- Whether the directives of a selection let it in. The first that does not
decides; a condition without a truth value is a fault. -/
def isIncluded (bindings : Variables) : List Directive → Except SelectionFault Bool
  | [] => .ok true
  | directive :: rest =>
      match directive.condition? with
      | none => isIncluded bindings rest
      | some expected =>
          match directive.given? bindings with
          | none => .error (.invalidDirective directive.name.text directive.location)
          | some value =>
              if value = expected then isIncluded bindings rest else .ok false

end GraphQuery
