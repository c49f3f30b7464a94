import GraphQuery.Source.Location

namespace GraphQuery

/-! What can be wrong with selections, found without looking at any value. -/

inductive SelectionFault where
  | unknownFragment (name : String) (location : Location)
  | fragmentCycle (name : String) (location : Location)
  /-- A condition on a selection without a truth value. -/
  | invalidDirective (name : String) (location : Location)
deriving DecidableEq

namespace SelectionFault

def location : SelectionFault → Location
  | .unknownFragment _ location => location
  | .fragmentCycle _ location => location
  | .invalidDirective _ location => location

def message : SelectionFault → String
  | .unknownFragment name _ => "Fragment " ++ name ++ " was used, but not defined"
  | .fragmentCycle name _ => "Fragment " ++ name ++ " contains an infinite loop"
  | .invalidDirective name _ =>
      "Directive @" ++ name ++ " requires a Boolean argument 'if'"

end SelectionFault

end GraphQuery
