import GraphQuery.Json.Printer
import GraphQuery.Text.Quoted

namespace GraphQuery

/-! Values that a resolver wants in a definite form. -/

inductive Form where
  | whole (word : Word)
  | float64
  | boolean
  | string
  | listOfInt64
  | anything
deriving DecidableEq, Repr

namespace Form

def render : Form → String
  | .whole .int64 => "i64"
  | .whole .int32 => "i32"
  | .whole .uint64 => "u64"
  | .float64 => "f64"
  | .boolean => "a boolean"
  | .string => "a string"
  | .listOfInt64 => "a sequence"
  | .anything => "any value"

end Form

inductive Mismatch where
  | wrongKind (found : Json) (wanted : Form)
  | outOfRange (found : Int) (wanted : Word)

namespace Mismatch

def describe : Json → String
  | .null => "null"
  | .boolean value => "boolean `" ++ (if value then "true" else "false") ++ "`"
  | .integer value => "integer `" ++ toString value ++ "`"
  | .float value => "floating point `" ++ Json.renderFloat value ++ "`"
  | .string value => "string " ++ Text.quote value
  | .array _ => "sequence"
  | .object _ => "map"

def message : Mismatch → String
  | .wrongKind found wanted =>
      "invalid type: " ++ describe found ++ ", expected " ++ wanted.render
  | .outOfRange found wanted =>
      "invalid value: integer `" ++ toString found ++ "`, expected " ++
        (Form.whole wanted).render

end Mismatch

namespace Form

def readWhole (word : Word) (value : Json) : Except Mismatch Json :=
  match value with
  | .integer number =>
      if word.Fits number then .ok value else .error (.outOfRange number word)
  | _ => .error (.wrongKind value (.whole word))

/-- The value in a form, or the reason why it has none. Only doubles are
converted: any number can be read as one. -/
def read (form : Form) (value : Json) : Except Mismatch Json :=
  match form, value with
  | .anything, _ => .ok value
  | .boolean, .boolean _ => .ok value
  | .string, .string _ => .ok value
  | .float64, .integer number => .ok (.float (Binary64.ofInt number))
  | .float64, .float _ => .ok value
  | .listOfInt64, .array items => do
      let _ ← items.mapM (readWhole .int64)
      return value
  | .whole word, _ => readWhole word value
  | _, _ => .error (.wrongKind value form)

end Form

end GraphQuery
