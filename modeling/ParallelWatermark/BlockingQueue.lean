import Mathlib.Data.Fintype.Card
import Mathlib.Logic.Function.Basic
import ParallelWatermark.Process.Fifo

/-!
# The blocking queue

`queue<T>` of `util.cpp` as a monitor shared by any threads, each of which calls `push` and `pop` as
often as it likes. A step is the taking or the release of the mutex, what is done to the deque while
it is held, a notification, or a spurious wake-up.
-/

namespace ParallelWatermark.BlockingQueue

open Process

/-- Where a thread is. -/
inductive Pc (α : Type) where
  | idle  -- between two calls
  | pushEntry (value : α)  -- in `push`, about to lock the mutex
  | pushLocked (value : α)  -- holding the mutex, about to `push_front`
  | pushed  -- holding the mutex, about to release it
  | notifying  -- about to `notify_one`
  | popEntry  -- in `pop`, about to lock the mutex
  | testing  -- holding the mutex, about to look whether the deque is empty
  | waiting  -- waiting on the condition
  | woken  -- woken, about to lock the mutex again
  | retesting  -- holding the mutex after a wake-up, about to look again
  | popped (rc : α)  -- holding the mutex, about to release it and return `rc`
  deriving DecidableEq, Repr

namespace Pc

variable {α : Type}

/-- What a thread that is about to lock the mutex does when it holds it. -/
def locked : Pc α → Option (Pc α)
  | .pushEntry value => some (.pushLocked value)
  | .popEntry => some .testing
  | .woken => some .retesting
  | _ => none

def holdsMutex : Pc α → Bool
  | .pushLocked _ => true
  | .pushed => true
  | .testing => true
  | .retesting => true
  | .popped _ => true
  | _ => false

/-- The thread is about to evaluate the predicate of `wait`. -/
def tests : Pc α → Bool
  | .testing => true
  | .retesting => true
  | _ => false

def owesNotification : Pc α → Bool
  | .pushed => true
  | .notifying => true
  | _ => false

def isWoken : Pc α → Bool
  | .woken => true
  | .retesting => true
  | _ => false

end Pc

structure State (ι α : Type) where
  deque : Fifo α
  owner : Option ι  -- the thread that holds the mutex
  thread : ι → Pc α

namespace State

variable {ι α : Type}

def start : State ι α := ⟨Fifo.empty, none, fun _ => .idle⟩

def goto [DecidableEq ι] (s : State ι α) (i : ι) (pc : Pc α) : State ι α :=
  { s with thread := Function.update s.thread i pc }

@[simp] theorem goto_deque [DecidableEq ι] (s : State ι α) (i : ι) (pc : Pc α) :
    (s.goto i pc).deque = s.deque := rfl

def pendingNotifications [Fintype ι] (s : State ι α) : Nat :=
  (Finset.univ.filter fun i => (s.thread i).owesNotification).card

/-- The number of consumers woken that have not yet looked again. -/
def wokenConsumers [Fintype ι] (s : State ι α) : Nat :=
  (Finset.univ.filter fun i => (s.thread i).isWoken).card

end State

inductive Event (ι α : Type) where
  | callPush (i : ι) (value : α)
  | callPop (i : ι)
  | lock (i : ι)
  | pushFront (i : ι) (value : α)
  | unlock (i : ι)
  | notifyOne (i : ι) (woken : Option ι)  -- `notify_one`, with the thread it wakes
  | wait (i : ι)
  | popBack (i : ι) (rc : α)
  | returned (i : ι) (rc : α)
  | wakeSpuriously (i : ι)
  deriving DecidableEq, Repr

variable {ι α : Type} [DecidableEq ι]

inductive Step : State ι α → Event ι α → State ι α → Prop
  | callPush {s : State ι α} {i : ι} (value : α) (hpc : s.thread i = .idle) :
      Step s (.callPush i value) (s.goto i (.pushEntry value))
  | callPop {s : State ι α} {i : ι} (hpc : s.thread i = .idle) : Step s (.callPop i) (s.goto i .popEntry)
  | lock {s : State ι α} {i : ι} {pc : Pc α} (hfree : s.owner = none)
      (hpc : (s.thread i).locked = some pc) :
      Step s (.lock i) { s.goto i pc with owner := some i }
  | pushFront {s : State ι α} {i : ι} {value : α} (hpc : s.thread i = .pushLocked value) :
      Step s (.pushFront i value) { s.goto i .pushed with deque := s.deque.push value }
  | unlock {s : State ι α} {i : ι} (hpc : s.thread i = .pushed) :
      Step s (.unlock i) { s.goto i .notifying with owner := none }
  | notifyOne {s : State ι α} {i j : ι} (hpc : s.thread i = .notifying)
      (hwaiting : s.thread j = .waiting) :
      Step s (.notifyOne i (some j)) ((s.goto i .idle).goto j .woken)
  | notifyNone {s : State ι α} {i : ι} (hpc : s.thread i = .notifying)
      (hnone : ∀ j, s.thread j ≠ .waiting) :
      Step s (.notifyOne i none) (s.goto i .idle)
  | wait {s : State ι α} {i : ι} (hpc : (s.thread i).tests = true) (hempty : s.deque.items = []) :
      Step s (.wait i) { s.goto i .waiting with owner := none }
  | popBack {s : State ι α} {i : ι} {rc : α} {deque' : Fifo α} (hpc : (s.thread i).tests = true)
      (hpop : s.deque.pop = some (rc, deque')) :
      Step s (.popBack i rc) { s.goto i (.popped rc) with deque := deque' }
  | returned {s : State ι α} {i : ι} {rc : α} (hpc : s.thread i = .popped rc) :
      Step s (.returned i rc) { s.goto i .idle with owner := none }
  | wakeSpuriously {s : State ι α} {i : ι} (hpc : s.thread i = .waiting) :
      Step s (.wakeSpuriously i) (s.goto i .woken)

end ParallelWatermark.BlockingQueue
