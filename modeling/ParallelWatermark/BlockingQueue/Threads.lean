import ParallelWatermark.BlockingQueue
import ParallelWatermark.Process.Threads

/-!
# Threads that share blocking queues

The threads of `Process.Threads` with a monitor in place of every queue. A push is a call, the steps
of `push` inside the monitor, and a return with `notify_one`; a pop is a call, the steps of `pop`, and
a return with the element. Between them anybody else may move.
-/

namespace ParallelWatermark.BlockingQueue

open Process

/-- The steps of a thread inside a monitor that neither begin a call nor end one. -/
def Event.isInside {ι α : Type} : Event ι α → Bool
  | .lock _ => true
  | .pushFront _ _ => true
  | .unlock _ => true
  | .wait _ => true
  | .popBack _ _ => true
  | .wakeSpuriously _ => true
  | _ => false

namespace Threads

variable {ι κ ε δ : Type} {α : κ → Type}

inductive Event {κ : Type} (ι : Type) (α : κ → Type) (ε : Type) where
  | monitor (k : κ) (e : BlockingQueue.Event ι (α k))
  | act (i : ι) (e : ε)
  | spawn (i j : ι)
  | join (i j : ι)
  | throw (i : ι)

structure State (prog : Program ι α ε) (δ : Type) where
  queue : ∀ k, BlockingQueue.State ι (α k)
  thread : ∀ i, prog.State i  -- while a thread is in a call, the state it made the call in
  running : ι → Bool
  shared : δ
  aborted : Bool

def start (prog : Program ι α ε) (shared : δ) : State prog δ :=
  ⟨fun _ => BlockingQueue.State.start, prog.start, prog.initial, shared, false⟩

variable [DecidableEq ι] [DecidableEq κ] {prog : Program ι α ε}

def State.goto (s : State prog δ) (i : ι) (next : prog.State i) : State prog δ :=
  { s with thread := Function.update s.thread i next }

inductive Step (effect : ε → δ → δ) : State prog δ → Event ι α ε → State prog δ → Prop
  | callPush {s : State prog δ} {i : ι} {k : κ} {value : α k} {next : prog.State i}
      {queue' : BlockingQueue.State ι (α k)} (hlive : s.aborted = false) (hrunning : s.running i = true)
      (hinstr : prog.instr i (s.thread i) = .push k value next)
      (hstep : BlockingQueue.Step (s.queue k) (.callPush i value) queue') :
      Step effect s (.monitor k (.callPush i value)) { s with queue := Function.update s.queue k queue' }
  | callPop {s : State prog δ} {i : ι} {k : κ} {next : α k → prog.State i}
      {queue' : BlockingQueue.State ι (α k)} (hlive : s.aborted = false) (hrunning : s.running i = true)
      (hinstr : prog.instr i (s.thread i) = .pop k next)
      (hstep : BlockingQueue.Step (s.queue k) (.callPop i) queue') :
      Step effect s (.monitor k (.callPop i)) { s with queue := Function.update s.queue k queue' }
  | inside {s : State prog δ} {k : κ} {e : BlockingQueue.Event ι (α k)}
      {queue' : BlockingQueue.State ι (α k)} (hlive : s.aborted = false) (hinside : e.isInside = true)
      (hstep : BlockingQueue.Step (s.queue k) e queue') :
      Step effect s (.monitor k e) { s with queue := Function.update s.queue k queue' }
  | returnPush {s : State prog δ} {i : ι} {k : κ} {value : α k} {next : prog.State i} {woken : Option ι}
      {queue' : BlockingQueue.State ι (α k)} (hlive : s.aborted = false)
      (hinstr : prog.instr i (s.thread i) = .push k value next)
      (hstep : BlockingQueue.Step (s.queue k) (.notifyOne i woken) queue') :
      Step effect s (.monitor k (.notifyOne i woken))
        { s.goto i next with queue := Function.update s.queue k queue' }
  | returnPop {s : State prog δ} {i : ι} {k : κ} {rc : α k} {next : α k → prog.State i}
      {queue' : BlockingQueue.State ι (α k)} (hlive : s.aborted = false)
      (hinstr : prog.instr i (s.thread i) = .pop k next)
      (hstep : BlockingQueue.Step (s.queue k) (.returned i rc) queue') :
      Step effect s (.monitor k (.returned i rc))
        { s.goto i (next rc) with queue := Function.update s.queue k queue' }
  | act {s : State prog δ} {i : ι} {e : ε} {next : prog.State i}
      (hlive : s.aborted = false) (hrunning : s.running i = true)
      (hinstr : prog.instr i (s.thread i) = .act e next) :
      Step effect s (.act i e) { s.goto i next with shared := effect e s.shared }
  | spawn {s : State prog δ} {i j : ι} {next : prog.State i}
      (hlive : s.aborted = false) (hrunning : s.running i = true)
      (hinstr : prog.instr i (s.thread i) = .spawn j next) :
      Step effect s (.spawn i j) { s.goto i next with running := Function.update s.running j true }
  | join {s : State prog δ} {i j : ι} {next : prog.State i}
      (hlive : s.aborted = false) (hrunning : s.running i = true)
      (hinstr : prog.instr i (s.thread i) = .join j next) (hstarted : s.running j = true)
      (hreturned : prog.instr j (s.thread j) = .returned) :
      Step effect s (.join i j) (s.goto i next)
  | throw {s : State prog δ} {i : ι} (hlive : s.aborted = false) (hrunning : s.running i = true)
      (hinstr : prog.instr i (s.thread i) = .throw) :
      Step effect s (.throw i) { s with aborted := true }

abbrev History (prog : Program ι α ε) (effect : ε → δ → δ) (shared : δ) (evs : List (Event ι α ε))
    (s : State prog δ) : Prop :=
  Run (Step effect) (start prog shared) evs s

/-- The step comes from outside the program. -/
def Event.isSpurious : Event ι α ε → Bool
  | .monitor _ (.wakeSpuriously _) => true
  | _ => false

/-- Nothing can happen but spurious wake-ups. -/
def Quiet (effect : ε → δ → δ) (s : State prog δ) : Prop := ∀ e s', Step effect s e s' → e.isSpurious = true

end Threads

end ParallelWatermark.BlockingQueue
