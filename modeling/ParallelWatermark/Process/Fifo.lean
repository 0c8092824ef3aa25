import Mathlib.Data.List.Basic
import Mathlib.Tactic.Common

/-!
# A first-in first-out queue kept in a deque

Elements enter at the front of the deque and leave at its back. `items` reads the deque from back to
front, which is the order in which its elements will leave; the rest of the development reasons
about `items` only.
-/

namespace Process

/-- The deque of a queue, front first. -/
structure Fifo (α : Type*) where
  deque : List α
  deriving DecidableEq, Repr

namespace Fifo

variable {α : Type*}

def empty : Fifo α := ⟨[]⟩

/-- `push_front`. -/
def push (q : Fifo α) (value : α) : Fifo α := ⟨value :: q.deque⟩

/-- `back` and `pop_back`, or nothing when the deque is empty. -/
def pop (q : Fifo α) : Option (α × Fifo α) :=
  q.deque.getLast?.map fun value => (value, ⟨q.deque.dropLast⟩)

/-- `back`, or nothing when the deque is empty. -/
def back (q : Fifo α) : Option α := q.deque.getLast?

/-- What `pop_back` leaves. -/
def popBack (q : Fifo α) : Fifo α := ⟨q.deque.dropLast⟩

/-- The elements in the order in which they will be popped. -/
def items (q : Fifo α) : List α := q.deque.reverse

@[simp] theorem items_push (q : Fifo α) (value : α) :
    (q.push value).items = q.items ++ [value] := by
  simp [items, push]

theorem items_foldl_push (q : Fifo α) (l : List α) : (l.foldl push q).items = q.items ++ l := by
  induction l generalizing q with
  | nil => simp
  | cons value l ih => rw [List.foldl_cons, ih, items_push, List.append_assoc, List.singleton_append]

theorem pop_eq_some_iff {q q' : Fifo α} {value : α} :
    q.pop = some (value, q') ↔ q.items = value :: q'.items := by
  obtain ⟨deque⟩ := q
  obtain ⟨deque'⟩ := q'
  rcases List.eq_nil_or_concat deque with rfl | ⟨init, last, rfl⟩
  · simp [pop, items]
  · simp [pop, items]

theorem pop_eq_none_iff {q : Fifo α} : q.pop = none ↔ q.items = [] := by
  simp [pop, items]

theorem pop_eq_back (q : Fifo α) : q.pop = q.back.map fun value => (value, q.popBack) := rfl

theorem exists_pop {q : Fifo α} (hne : q.items ≠ []) : ∃ value q', q.pop = some (value, q') := by
  cases hpop : q.pop with
  | none => exact absurd (pop_eq_none_iff.mp hpop) hne
  | some popped => exact ⟨popped.1, popped.2, rfl⟩

end Fifo

end Process
