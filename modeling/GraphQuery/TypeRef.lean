namespace GraphQuery

/-! References to types: a named type inside any nesting of lists, each level of
which may refuse null. The same shape serves for types as they are written in a
document, whose names have positions, and for types as a schema knows them. -/

inductive TypeShape (ν : Type) where
  | named (name : ν)
  | list (item : TypeShape ν)
  | nonNull (inner : TypeShape ν)
deriving DecidableEq, Repr, Inhabited

namespace TypeShape

variable {ν : Type} {μ : Type}

def isNonNull : TypeShape ν → Bool
  | .nonNull _ => true
  | _ => false

def base : TypeShape ν → ν
  | .named name => name
  | .list item => item.base
  | .nonNull inner => inner.base

def toNonNull : TypeShape ν → TypeShape ν
  | .nonNull inner => .nonNull inner
  | shape => .nonNull shape

def toNullable : TypeShape ν → TypeShape ν
  | .nonNull inner => inner
  | shape => shape

@[simp] theorem isNonNull_toNonNull (shape : TypeShape ν) :
    shape.toNonNull.isNonNull = true := by
  cases shape <;> rfl

/-- Exchange the name; no level refuses null twice in the result. -/
def relabel (name : ν → μ) : TypeShape ν → TypeShape μ
  | .named label => .named (name label)
  | .list item => .list (item.relabel name)
  | .nonNull inner => (inner.relabel name).toNonNull

def renderWith (name : ν → String) : TypeShape ν → String
  | .named label => name label
  | .list item => "[" ++ item.renderWith name ++ "]"
  | .nonNull inner => inner.renderWith name ++ "!"

end TypeShape

abbrev TypeRef := TypeShape String

namespace TypeRef

def render (type : TypeRef) : String := TypeShape.renderWith id type

end TypeRef

end GraphQuery
