import Mathlib.Data.List.Range
import ParallelWatermark.FastFlow.ParallelFor.Passive
import ParallelWatermark.Process.Farm

/-!
# The parallel for with a scheduler thread

Now the table belongs to the scheduler. A worker gives each task back when it has made its call, and
is sent another one, or `GO_OUT` if there is none. The scheduler returns when it has got all tasks
back, and `wait_freezing` waits for it alone. Each worker is reached through a queue of its own, and
has one for what it gives back.
-/

namespace ParallelWatermark.FastFlow.ParallelFor.Active

variable {ε δ : Type}

inductive Msg
  | task (task : ForallTask)
  | goOut
  deriving DecidableEq, Repr

/-- What only the scheduler uses. -/
structure Serving where
  data : Table
  maxid : Int
  totaltasks : Int
  eossent : Nat → Bool
  returned : Bool

/-- `max_element` over the counts. -/
def maxElement (sched : Scheduler) (data : Table) : Nat :=
  (List.range' 1 (sched.size - 1)).foldl (fun largest k => if (data largest).ntask < (data k).ntask then k else largest) 0

/-- The entry from which `nextTask` takes a task for a worker, if there is one, and `maxid` after it. -/
def nextTask (sched : Scheduler) (data : Table) (maxid : Int) (wid : Nat) : Option Nat × Int :=
  if (data wid).ntask ≠ 0 then (some wid, maxid)
  else if 0 ≤ maxid ∧ 0 < (data maxid.toNat).ntask then (some maxid.toNat, maxid)
  else
    let id := maxElement sched data
    (if 0 < (data id).ntask then some id else none, id)

/-- `GO_OUT`, unless the worker has been sent it before. -/
def goOut (s : Serving) (wid : Nat) : List (Nat × Msg) × Serving :=
  if s.eossent wid then ([], s) else ([(wid, .goOut)], { s with eossent := Function.update s.eossent wid true })

/-- `svc` for a task that a worker gives back: what it sends, and what it leaves. -/
def svc (sched : Scheduler) (s : Serving) (wid : Nat) : List (Nat × Msg) × Serving :=
  let s := { s with totaltasks := s.totaltasks - 1 }
  if s.totaltasks ≤ 0 then
    let (sent, s) := goOut s wid
    (sent, { s with returned := true })
  else
    let (next, maxid) := nextTask sched s.data s.maxid wid
    let s := { s with maxid := maxid }
    match next with
    | some id => ([(wid, .task (sched.nextOf (s.data id)))],
        { s with data := Function.update s.data id (sched.sentOf (s.data id)) })
    | none => goOut s wid

/-- Where a worker is. -/
inductive Pc (ε : Type)
  | waiting
  | running (task : ForallTask) (todo : List ε)
  | out

structure State (ε δ : Type) where
  serving : Serving
  outbox : List (Nat × Msg)  -- what `svc` still has to send
  input : Nat → List Msg
  pc : Nat → Pc ε
  output : Nat → List ForallTask
  value : δ

/-- When the scheduler has sent nothing of what the first `svc` sends. -/
def start (loop : Loop ε δ) (value : δ) : State ε δ where
  serving := ⟨(loop.sched.sendTask false).data, -1, loop.sched.totaltasks, fun _ => false, false⟩
  outbox := (loop.sched.sendTask false).sent.map fun p => (p.1, .task p.2)
  input := fun _ => []
  pc := fun _ => .waiting
  output := fun _ => []
  value := value

inductive Event (ε : Type)
  | send (wid : Nat)
  | collect (wid : Nat) (task : ForallTask)
  | pop (wid : Nat) (msg : Msg)
  | act (wid : Nat) (a : ε)
  | giveBack (wid : Nat)

/-- Where a worker goes on that has popped a message. -/
def afterPop (body : ForallTask → List ε) : Msg → Pc ε
  | .task task => .running task (body task)
  | .goOut => .out

inductive Step (loop : Loop ε δ) : State ε δ → Event ε → State ε δ → Prop
  | send {s : State ε δ} {wid : Nat} {msg : Msg} {rest : List (Nat × Msg)} (hbox : s.outbox = (wid, msg) :: rest) :
      Step loop s (.send wid) { s with outbox := rest, input := Function.update s.input wid (s.input wid ++ [msg]) }
  | collect {s : State ε δ} {wid : Nat} {task : ForallTask} {rest : List ForallTask} (hbox : s.outbox = [])
      (hreturned : s.serving.returned = false) (hout : s.output wid = task :: rest) :
      Step loop s (.collect wid task)
        { s with
          serving := (svc loop.sched s.serving wid).2
          outbox := (svc loop.sched s.serving wid).1
          output := Function.update s.output wid rest }
  | pop {s : State ε δ} {wid : Nat} {msg : Msg} {rest : List Msg} (hwid : wid < loop.sched.nw) (hpc : s.pc wid = .waiting)
      (hin : s.input wid = msg :: rest) :
      Step loop s (.pop wid msg)
        { s with input := Function.update s.input wid rest, pc := Function.update s.pc wid (afterPop loop.body msg) }
  | act {s : State ε δ} {wid : Nat} {task : ForallTask} {a : ε} {todo : List ε} (hpc : s.pc wid = .running task (a :: todo)) :
      Step loop s (.act wid a)
        { s with pc := Function.update s.pc wid (.running task todo), value := loop.effect a s.value }
  | giveBack {s : State ε δ} {wid : Nat} {task : ForallTask} (hpc : s.pc wid = .running task []) :
      Step loop s (.giveBack wid)
        { s with pc := Function.update s.pc wid .waiting, output := Function.update s.output wid (s.output wid ++ [task]) }

abbrev History (loop : Loop ε δ) (value : δ) (evs : List (Event ε)) (s : State ε δ) : Prop :=
  Process.Run (Step loop) (start loop value) evs s

/-- The call that a worker makes for the task it has popped. -/
def Event.calls : Event ε → List (Nat × ForallTask)
  | .pop wid (.task task) => [(wid, task)]
  | _ => []

end ParallelWatermark.FastFlow.ParallelFor.Active
