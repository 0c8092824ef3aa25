import ParallelWatermark.BlockingQueue

/-!
# The removal of an element, statement by statement

In `BlockingQueue` a consumer whose test succeeds removes an element in the same step. Here the test,
`back()` and `pop_back()` are steps of their own, between which others may move, and calling either
of the two on an empty deque is an event. Everything else is a step of the monitor.
-/

namespace ParallelWatermark.BlockingQueue

open Process

/-- How far a consumer has come since it last began to test. -/
inductive Removal (α : Type) where
  | untested
  | passed  -- the deque was not empty; about to call `back`
  | read (rc : α)  -- about to call `pop_back`
  deriving DecidableEq, Repr

structure DetailedState (ι α : Type) where
  monitor : State ι α
  removal : ι → Removal α

def DetailedState.start {ι α : Type} : DetailedState ι α := ⟨State.start, fun _ => .untested⟩

inductive DetailedEvent (ι α : Type) where
  | monitor (e : Event ι α)
  | pass (i : ι)
  | back (i : ι) (rc : α)
  | popBack (i : ι) (rc : α)
  | undefined (i : ι)  -- `back` or `pop_back` on an empty deque
  deriving DecidableEq, Repr

namespace Event

variable {ι α : Type}

/-- The thread whose step it is. -/
def actor : Event ι α → ι
  | .callPush i _ => i
  | .callPop i => i
  | .lock i => i
  | .pushFront i _ => i
  | .unlock i => i
  | .notifyOne i _ => i
  | .wait i => i
  | .popBack i _ => i
  | .returned i _ => i
  | .wakeSpuriously i => i

def removes : Event ι α → Bool
  | .popBack _ _ => true
  | _ => false

end Event

variable {ι α : Type}

/-- The step of the monitor that a step comes to. -/
def DetailedEvent.monitorEvent? : DetailedEvent ι α → Option (Event ι α)
  | .monitor e => some e
  | .popBack i rc => some (.popBack i rc)
  | _ => none

def monitorEvents (evs : List (DetailedEvent ι α)) : List (Event ι α) :=
  evs.filterMap DetailedEvent.monitorEvent?

variable [DecidableEq ι]

inductive DetailedStep : DetailedState ι α → DetailedEvent ι α → DetailedState ι α → Prop
  | monitor {s : DetailedState ι α} {e : Event ι α} {monitor' : State ι α}
      (hstep : Step s.monitor e monitor')
      (hremoves : e.removes = false) (hactor : s.removal e.actor = .untested) :
      DetailedStep s (.monitor e) { s with monitor := monitor' }
  | pass {s : DetailedState ι α} {i : ι} (hpc : (s.monitor.thread i).tests = true)
      (huntested : s.removal i = .untested)
      (hne : s.monitor.deque.back.isSome = true) :
      DetailedStep s (.pass i) { s with removal := Function.update s.removal i .passed }
  | back {s : DetailedState ι α} {i : ι} {rc : α} (hpassed : s.removal i = .passed)
      (hback : s.monitor.deque.back = some rc) :
      DetailedStep s (.back i rc) { s with removal := Function.update s.removal i (.read rc) }
  | popBack {s : DetailedState ι α} {i : ι} {rc : α} (hread : s.removal i = .read rc)
      (hne : s.monitor.deque.back.isSome = true) :
      DetailedStep s (.popBack i rc)
        ⟨{ s.monitor.goto i (.popped rc) with deque := s.monitor.deque.popBack },
          Function.update s.removal i .untested⟩
  | undefinedBack {s : DetailedState ι α} {i : ι} (hpassed : s.removal i = .passed)
      (hempty : s.monitor.deque.back = none) :
      DetailedStep s (.undefined i) s
  | undefinedPopBack {s : DetailedState ι α} {i : ι} {rc : α} (hread : s.removal i = .read rc)
      (hempty : s.monitor.deque.back = none) :
      DetailedStep s (.undefined i) s

end ParallelWatermark.BlockingQueue
