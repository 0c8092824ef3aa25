import Mathlib.Data.List.FinRange
import ParallelWatermark.FastFlow.ParallelFor
import ParallelWatermark.Process.Run

/-!
# The parallel for without a scheduler thread

Each worker is sent one task before it starts. From then on it takes its next task from the table
itself, in `nextTaskConcurrent`: from its own entry as long as that has tasks, then from one that had
the most when it looked. A step is one access to a shared variable, or one action of the body.
-/

namespace ParallelWatermark.FastFlow.ParallelFor

variable {ε δ : Type}

/-- A scheduler after `setloop`, and the body of the loop: the actions of `F(start,end)` and what each
does to a shared value. -/
structure Loop (ε δ : Type) where
  sched : Scheduler
  body : ForallTask → List ε
  effect : ε → δ → δ

namespace Passive

/-- Where a worker is. -/
inductive Pc (ε : Type)
  | noTask  -- waits for the task it starts with
  | running (todo : List ε)
  | test (id : Nat)  -- at `L1`
  | loadStart (id : Nat)
  | swap (id : Nat) (oldstart : Int)
  | subtract (id : Nat) (task : ForallTask)
  | testMaxid
  | loadMaxid
  | findMax (k largest : Nat)  -- `max_element` before its comparison with entry `k`
  | compare (k largest : Nat) (ntask : Int)
  | loadNtask (id : Nat)
  | compareMaxid (id : Nat)
  | storeMaxid (id : Nat)
  | out
  deriving DecidableEq

structure State (sched : Scheduler) (ε δ : Type) where
  data : Table
  maxid : Int
  pc : Fin sched.nw → Pc ε
  value : δ

variable (loop : Loop ε δ)

/-- After `sendTask(true)`, when the workers are started. -/
def start (value : δ) : State loop.sched ε δ where
  data := (loop.sched.sendTask true).data
  maxid := -1
  pc := fun w => match (loop.sched.sendTask true).sent.lookup w.val with
    | some task => .running (loop.body task)
    | none => .noTask
  value := value

/-- Where `max_element` goes on. -/
def scan (sched : Scheduler) (k largest : Nat) : Pc ε :=
  if k < sched.size then .findMax k largest else .loadNtask largest

/-- When the entry has no task for the worker. -/
def noMore (sched : Scheduler) : Pc ε := if sched.staticScheduling then .out else .testMaxid

/-- The accesses that only read. -/
def Pc.read (sched : Scheduler) (data : Table) (maxid : Int) : Pc ε → Option (Pc ε)
  | .test id => some (if 0 < (data id).ntask then .loadStart id else noMore sched)
  | .loadStart id => some (.swap id (data id).task.start)
  | .testMaxid => some (if maxid < 0 then scan sched 1 0 else .loadMaxid)
  | .loadMaxid => some (.loadNtask maxid.toNat)
  | .findMax k largest => some (.compare k largest (data largest).ntask)
  | .compare k largest ntask => some (scan sched (k + 1) (if ntask < (data k).ntask then k else largest))
  | .loadNtask id => some (if 0 < (data id).ntask then .compareMaxid id else .out)
  | .compareMaxid id => some (if (id : Int) ≠ maxid then .storeMaxid id else .test id)
  | _ => none

/-- What a worker did: an action of the body, a task taken by a successful exchange, an exchange that
failed, or any other access. -/
inductive Event (sched : Scheduler) (ε : Type)
  | act (w : Fin sched.nw) (a : ε)
  | took (w : Fin sched.nw) (task : ForallTask)
  | failed (w : Fin sched.nw) (spurious : Bool)
  | moved (w : Fin sched.nw)

def State.goto {sched : Scheduler} (s : State sched ε δ) (w : Fin sched.nw) (pc : Pc ε) : State sched ε δ :=
  { s with pc := Function.update s.pc w pc }

/-- `compare_exchange_weak` may fail although the value is the expected one. -/
inductive Step : State loop.sched ε δ → Event loop.sched ε → State loop.sched ε δ → Prop
  | act {s : State loop.sched ε δ} {w : Fin loop.sched.nw} {a : ε} {todo : List ε} (hpc : s.pc w = .running (a :: todo)) :
      Step s (.act w a) { s.goto w (.running todo) with value := loop.effect a s.value }
  | returned {s : State loop.sched ε δ} {w : Fin loop.sched.nw} (hpc : s.pc w = .running []) :
      Step s (.moved w) (s.goto w (.test w))
  | read {s : State loop.sched ε δ} {w : Fin loop.sched.nw} {pc : Pc ε}
      (hpc : (s.pc w).read loop.sched s.data s.maxid = some pc) : Step s (.moved w) (s.goto w pc)
  | took {s : State loop.sched ε δ} {w : Fin loop.sched.nw} {id : Nat} {oldstart : Int}
      (hpc : s.pc w = .swap id oldstart) (hsame : (s.data id).task.start = oldstart) :
      Step s (.took w (loop.sched.nextOf (s.data id)))
        { s.goto w (.subtract id (loop.sched.nextOf (s.data id))) with
          data := Function.update s.data id (loop.sched.advance (s.data id)) }
  | failed {s : State loop.sched ε δ} {w : Fin loop.sched.nw} {id : Nat} {oldstart : Int}
      (hpc : s.pc w = .swap id oldstart) :
      Step s (.failed w (decide ((s.data id).task.start = oldstart))) (s.goto w (.test id))
  | subtract {s : State loop.sched ε δ} {w : Fin loop.sched.nw} {id : Nat} {task : ForallTask}
      (hpc : s.pc w = .subtract id task) :
      Step s (.moved w)
        { s.goto w (if task.start < task.stop then .running (loop.body task) else noMore loop.sched) with
          data := Function.update s.data id { s.data id with ntask := (s.data id).ntask - 1 } }
  | storeMaxid {s : State loop.sched ε δ} {w : Fin loop.sched.nw} {id : Nat} (hpc : s.pc w = .storeMaxid id) :
      Step s (.moved w) { s.goto w (.test id) with maxid := id }

abbrev History (value : δ) (evs : List (Event loop.sched ε)) (s : State loop.sched ε δ) : Prop :=
  Process.Run (Step loop) (start loop value) evs s

/-! ### The calls -/

/-- The call that a worker makes when it has taken a task. -/
def Event.calls {sched : Scheduler} : Event sched ε → List (Fin sched.nw × ForallTask)
  | .took w task => if task.start < task.stop then [(w, task)] else []
  | _ => []

/-- The calls for the tasks sent first. -/
def firstCalls (sched : Scheduler) : List (Fin sched.nw × ForallTask) :=
  (List.finRange sched.nw).map fun w => (w, sched.nextOf (sched.data w))

/-- All calls of `F`, each with its worker: those for the tasks sent first and those for the tasks taken. -/
def calls (evs : List (Event loop.sched ε)) : List (Fin loop.sched.nw × ForallTask) :=
  firstCalls loop.sched ++ evs.flatMap Event.calls

end Passive

end ParallelWatermark.FastFlow.ParallelFor
