/-
# Work that waits

A queue that is first in, first out, and that ignores a value which is already
waiting in it. A value that has left the queue can wait again.

Key definitions: `Pending`, `Pending.push`, `Pending.pop`.
-/

namespace BottomUp

/-- A queue in which each value waits at most once, first to leave first. -/
structure Pending (α : Type) where
  waiting : List α
  distinct : waiting.Nodup

namespace Pending

variable {α : Type}

/-- The queue in which nothing waits. -/
def empty : Pending α := ⟨[], List.nodup_nil⟩

/-- Whether nothing waits. -/
def isEmpty (q : Pending α) : Bool := q.waiting.isEmpty

/-- Whether `x` waits. -/
def waits [DecidableEq α] (q : Pending α) (x : α) : Bool := decide (x ∈ q.waiting)

theorem nodup_concat [DecidableEq α] (q : Pending α) {x : α} (h : ¬ q.waits x) :
    (q.waiting ++ [x]).Nodup := by
  have hx : x ∉ q.waiting := by simpa [waits] using h
  rw [List.nodup_append]
  exact ⟨q.distinct, by simp, by grind⟩

/-- Lets `x` wait behind the others, unless it waits already. -/
def push [DecidableEq α] (q : Pending α) (x : α) : Pending α :=
  if h : q.waits x then q else ⟨q.waiting ++ [x], q.nodup_concat h⟩

/-- The queue without the value that has waited longest. -/
def rest (q : Pending α) : Pending α :=
  ⟨q.waiting.tail, q.distinct.sublist (List.tail_sublist q.waiting)⟩

/-- The value that has waited longest, and the queue without it. -/
def pop (q : Pending α) : Option (α × Pending α) := q.waiting.head?.map fun x => (x, q.rest)

theorem mem_waiting_push [DecidableEq α] {q : Pending α} {x y : α} :
    y ∈ (q.push x).waiting ↔ y ∈ q.waiting ∨ y = x := by
  unfold push waits
  split
  · grind
  · simp

end Pending

end BottomUp
