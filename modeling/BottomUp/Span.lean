/-
# Spans

A span of the input is where it starts and how long it is. Positions are whole
numbers of 64 bits, so a span near the largest position may have no end.

Key definitions: `Position.limit`, `Span`, `Span.stop`.
-/
import BottomUp.Fault

namespace BottomUp

/-- Positions are below this number. -/
def Position.limit : Nat := UInt64.size

/-- A position, or the fault that it is beyond the largest one. -/
def Position.check (position : Nat) : Except Fault Nat :=
  if position < Position.limit then .ok position else .error .positionOverflow

/-- A piece of the input: where it starts, and how long it is. -/
structure Span where
  index : Nat
  length : Nat
  deriving DecidableEq, Inhabited

namespace Span

/-- The position behind the span. -/
def stop (s : Span) : Except Fault Nat := Position.check (s.index + s.length)

/-- Spans are ordered by their starts, then by their lengths. -/
instance : Ord Span := ⟨compareLex (compareOn index) (compareOn length)⟩

/-- The text of a span. -/
def text (s : Span) : String := s!"@{s.index}+{s.length}"

end Span

end BottomUp
