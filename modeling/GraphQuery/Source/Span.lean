namespace GraphQuery

/-! Stretches of a source text. Offsets count UTF-8 bytes, so a span can be
handed to any tool that works on the encoded text. They are natural numbers where a
program would hold words of 32 bits: texts are taken to be shorter than `2 ^ 32` bytes,
and then no offset leaves its word. -/

/-- The bytes from `start` up to, but not including, `stop`. -/
structure Span where
  start : Nat
  stop : Nat
deriving DecidableEq, Repr, Inhabited

namespace Span

def empty (position : Nat) : Span := ⟨position, position⟩

def length (span : Span) : Nat := span.stop - span.start

def isEmpty (span : Span) : Bool := span.start == span.stop

def merge (left right : Span) : Span :=
  ⟨min left.start right.start, max left.stop right.stop⟩

def contains (span : Span) (position : Nat) : Bool :=
  decide (span.start ≤ position) && decide (position < span.stop)

theorem contains_iff {span : Span} {position : Nat} :
    span.contains position = true ↔ span.start ≤ position ∧ position < span.stop := by
  simp [contains]

theorem contains_empty (position other : Nat) :
    (empty position).contains other = false := by
  cases equal : (empty position).contains other with
  | false => rfl
  | true =>
      have within := contains_iff.mp equal
      simp only [empty] at within
      omega

end Span

end GraphQuery
