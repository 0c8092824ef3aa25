import ParallelWatermark.BlockingQueue.Threads
import ParallelWatermark.Process.Refinement
import ParallelWatermark.Proof.BlockingQueue.Order

/-!
# Calls of a blocking queue may be taken for single steps

A push takes effect when its thread has reached `push_front`, a pop when it has reached `pop_back`.
If every call is moved to that step, threads that share monitors run as the same threads do on plain
queues, each call one step; and where nothing is left but spurious wake-ups, the plain program can do
nothing more either. So what holds of all runs of the plain program holds of the other.
-/

namespace ParallelWatermark.BlockingQueue

open Process

/-! ### Steps of one monitor -/

section Monitor

variable {ι α : Type} [DecidableEq ι] {q q' : State ι α} {e : Event ι α}

/-- A step changes whether a call has taken effect for nobody but the thread that makes it. -/
theorem taken_of_ne_actor (hstep : Step q e q') {j : ι} (hj : j ≠ e.actor) :
    (q'.thread j).owesNotification = (q.thread j).owesNotification ∧
      (q'.thread j).result? = (q.thread j).result? := by
  cases hstep with
  | @notifyOne i k hpc hwaiting =>
    have hji : j ≠ i := hj
    by_cases hjk : j = k
    · subst hjk
      simp [State.goto, hwaiting, Pc.owesNotification, Pc.result?]
    · simp [State.goto, Function.update_of_ne hjk, Function.update_of_ne hji]
  | _ => exact ⟨congrArg Pc.owesNotification (Function.update_of_ne hj _ _), congrArg Pc.result? (Function.update_of_ne hj _ _)⟩

end Monitor

namespace Threads

variable {ι κ ε δ : Type} {α : κ → Type}

/-! ### What the position in a monitor says about the thread -/

/-- A thread in a call has made the call that its instruction says. -/
def InCall {σ : Type} (k : κ) (pc : Pc (α k)) (instr : Instr ι α ε σ) : Prop :=
  match pc with
  | .idle => True
  | .pushEntry value => ∃ next, instr = .push k value next
  | .pushLocked value => ∃ next, instr = .push k value next
  | .pushed => ∃ value next, instr = .push k value next
  | .notifying => ∃ value next, instr = .push k value next
  | _ => ∃ next, instr = .pop k next

section InCall

variable {σ : Type} {k k' : κ} {pc pc' : Pc (α k)} {instr : Instr ι α ε σ}

theorem idle_of_push {value : α k'} {next : σ} (hcall : InCall k pc (.push k' value next : Instr ι α ε σ))
    (hk : k ≠ k') : pc = .idle := by
  cases pc with
  | idle => rfl
  | pushEntry _ => obtain ⟨_, heq⟩ := hcall; cases heq; exact absurd rfl hk
  | pushLocked _ => obtain ⟨_, heq⟩ := hcall; cases heq; exact absurd rfl hk
  | pushed => obtain ⟨_, _, heq⟩ := hcall; cases heq; exact absurd rfl hk
  | notifying => obtain ⟨_, _, heq⟩ := hcall; cases heq; exact absurd rfl hk
  | _ => obtain ⟨_, heq⟩ := hcall; cases heq

theorem idle_of_pop {next : α k' → σ} (hcall : InCall k pc (.pop k' next : Instr ι α ε σ))
    (hk : k ≠ k') : pc = .idle := by
  cases pc with
  | idle => rfl
  | pushEntry _ => obtain ⟨_, heq⟩ := hcall; cases heq
  | pushLocked _ => obtain ⟨_, heq⟩ := hcall; cases heq
  | pushed => obtain ⟨_, _, heq⟩ := hcall; cases heq
  | notifying => obtain ⟨_, _, heq⟩ := hcall; cases heq
  | _ => obtain ⟨_, heq⟩ := hcall; cases heq; exact absurd rfl hk

/-- A thread whose instruction is no call is in none. -/
theorem idle_of_no_call (hcall : InCall k pc instr) (hpush : ∀ value next, instr ≠ .push k value next)
    (hpop : ∀ next, instr ≠ .pop k next) : pc = .idle := by
  cases pc with
  | idle => rfl
  | pushEntry _ => obtain ⟨_, heq⟩ := hcall; exact absurd heq (hpush _ _)
  | pushLocked _ => obtain ⟨_, heq⟩ := hcall; exact absurd heq (hpush _ _)
  | pushed => obtain ⟨_, _, heq⟩ := hcall; exact absurd heq (hpush _ _)
  | notifying => obtain ⟨_, _, heq⟩ := hcall; exact absurd heq (hpush _ _)
  | _ => obtain ⟨_, heq⟩ := hcall; exact absurd heq (hpop _)

theorem inCall_locked (hlocked : pc.locked = some pc') (hcall : InCall k pc instr) : InCall k pc' instr := by
  cases pc <;> cases hlocked <;> exact hcall

theorem pop_of_tests (htests : pc.tests = true) (hcall : InCall k pc instr) : ∃ next, instr = .pop k next := by
  cases pc <;> simp_all [Pc.tests, InCall]

variable [DecidableEq ι]

/-- A step inside the monitor keeps every thread in the call it has made. -/
theorem inCall_of_inside {q q' : BlockingQueue.State ι (α k)} {e : BlockingQueue.Event ι (α k)}
    (hinside : e.isInside = true) (hstep : BlockingQueue.Step q e q') {j : ι} (hcall : InCall k (q.thread j) instr) :
    InCall k (q'.thread j) instr := by
  have hgoto : ∀ {i pc}, (∀ instr : Instr ι α ε σ, InCall k (q.thread i) instr → InCall k pc instr) →
      InCall k ((q.goto i pc).thread j) instr := by
    intro i pc hpc
    by_cases hj : j = i
    · subst hj
      simpa [BlockingQueue.State.goto] using hpc instr hcall
    · simpa [BlockingQueue.State.goto, Function.update_of_ne hj] using hcall
  cases hstep with
  | callPush value hpc => cases hinside
  | callPop hpc => cases hinside
  | lock hfree hpc => exact hgoto fun instr => inCall_locked hpc
  | pushFront hpc =>
    apply hgoto
    intro instr hcall
    rw [hpc] at hcall
    exact ⟨_, hcall⟩
  | unlock hpc => exact hgoto fun instr hcall => by rwa [hpc] at hcall
  | notifyOne hpc hwaiting => cases hinside
  | notifyNone hpc hnone => cases hinside
  | wait hpc hempty => exact hgoto fun instr hcall => pop_of_tests hpc hcall
  | popBack hpc hpop => exact hgoto fun instr hcall => pop_of_tests hpc hcall
  | returned hpc => cases hinside
  | wakeSpuriously hpc => exact hgoto fun instr hcall => by rwa [hpc] at hcall

end InCall

variable [DecidableEq ι] [DecidableEq κ] {prog : Program ι α ε} {effect : ε → δ → δ}
  {s s' : State prog δ}

def Consistent (s : State prog δ) : Prop :=
  ∀ k i, InCall k ((s.queue k).thread i) (prog.instr i (s.thread i))

omit [DecidableEq ι] in
theorem consistent_of_monitor {k : κ} {queue' : BlockingQueue.State ι (α k)} (hinv : Consistent s)
    (hcall : ∀ i, InCall k (queue'.thread i) (prog.instr i (s.thread i))) :
    Consistent { s with queue := Function.update s.queue k queue' } := by
  intro k' i
  by_cases hk : k' = k
  · subst hk
    simpa using hcall i
  · simpa [Function.update_of_ne hk] using hinv k' i

omit [DecidableEq κ] in
/-- When a thread returns from a call it is in no call any more. -/
theorem consistent_of_return {i : ι} {next : prog.State i} {queue' : ∀ k, BlockingQueue.State ι (α k)}
    (hidle : ∀ k, (queue' k).thread i = .idle)
    (hother : ∀ k j, j ≠ i → InCall k ((queue' k).thread j) (prog.instr j (s.thread j))) :
    Consistent { s.goto i next with queue := queue' } := by
  intro k j
  by_cases hj : j = i
  · subst hj
    change InCall k ((queue' k).thread j) _
    rw [hidle k]
    trivial
  · simpa [State.goto, Function.update_of_ne hj] using hother k j hj

omit [DecidableEq ι] in
/-- A step of one monitor, seen at all of them. -/
theorem inCall_of_monitor {k : κ} {queue' : BlockingQueue.State ι (α k)} (hinv : Consistent s) {j : ι}
    (hcall : InCall k ((s.queue k).thread j) (prog.instr j (s.thread j)) →
      InCall k (queue'.thread j) (prog.instr j (s.thread j))) (k' : κ) :
    InCall k' ((Function.update s.queue k queue' k').thread j) (prog.instr j (s.thread j)) := by
  by_cases hk : k' = k
  · subst hk
    simpa using hcall (hinv k' j)
  · simpa [Function.update_of_ne hk] using hinv k' j

omit [DecidableEq κ] in
/-- A thread that moves on from an instruction that is no call is in no call before or after. -/
theorem consistent_of_goto {i : ι} {next : prog.State i} (hinv : Consistent s)
    (hidle : ∀ k, (s.queue k).thread i = .idle) : Consistent (s.goto i next) :=
  consistent_of_return hidle fun k j _ => hinv k j

omit [DecidableEq ι] [DecidableEq κ] in
theorem idle_of_act {i : ι} (hinv : Consistent s)
    (hpush : ∀ k value next, prog.instr i (s.thread i) ≠ .push k value next)
    (hpop : ∀ k next, prog.instr i (s.thread i) ≠ .pop k next) (k : κ) : (s.queue k).thread i = .idle :=
  idle_of_no_call (hinv k i) (hpush k) (hpop k)

theorem idle_of_returnPush {i : ι} {k : κ} {value : α k} {next : prog.State i} {woken : Option ι}
    {queue' : BlockingQueue.State ι (α k)} (hinv : Consistent s)
    (hinstr : prog.instr i (s.thread i) = .push k value next)
    (hstep : BlockingQueue.Step (s.queue k) (.notifyOne i woken) queue') (k' : κ) :
    (Function.update s.queue k queue' k').thread i = .idle := by
  by_cases hk : k' = k
  · subst hk
    cases hstep with
    | @notifyOne _ j hpc hwaiting =>
      have hne : i ≠ j := fun heq => by simp [← heq, hpc] at hwaiting
      simp [BlockingQueue.State.goto, Function.update_of_ne hne]
    | notifyNone hpc hnone => simp [BlockingQueue.State.goto]
  · rw [Function.update_of_ne hk]
    exact idle_of_push (hinstr ▸ hinv k' i) hk

theorem idle_of_returnPop {i : ι} {k : κ} {rc : α k} {next : α k → prog.State i}
    {queue' : BlockingQueue.State ι (α k)} (hinv : Consistent s)
    (hinstr : prog.instr i (s.thread i) = .pop k next)
    (hstep : BlockingQueue.Step (s.queue k) (.returned i rc) queue') (k' : κ) :
    (Function.update s.queue k queue' k').thread i = .idle := by
  by_cases hk : k' = k
  · subst hk
    obtain ⟨-, hpc⟩ := hstep
    simp [BlockingQueue.State.goto]
  · rw [Function.update_of_ne hk]
    exact idle_of_pop (hinstr ▸ hinv k' i) hk

theorem consistent_step {e : Event ι α ε} (hinv : Consistent s) (hstep : Step effect s e s') : Consistent s' := by
  cases hstep with
  | @callPush i k value next queue' hlive hrunning hinstr hstep =>
    obtain ⟨_, hpc⟩ := hstep
    refine consistent_of_monitor hinv fun j => ?_
    by_cases hj : j = i
    · subst hj
      have hcall : InCall k (.pushEntry value) (prog.instr j (s.thread j)) := ⟨next, hinstr⟩
      simpa [BlockingQueue.State.goto] using hcall
    · simpa [BlockingQueue.State.goto, Function.update_of_ne hj] using hinv k j
  | @callPop i k next queue' hlive hrunning hinstr hstep =>
    obtain ⟨hpc⟩ := hstep
    refine consistent_of_monitor hinv fun j => ?_
    by_cases hj : j = i
    · subst hj
      have hcall : InCall k .popEntry (prog.instr j (s.thread j)) := ⟨next, hinstr⟩
      simpa [BlockingQueue.State.goto] using hcall
    · simpa [BlockingQueue.State.goto, Function.update_of_ne hj] using hinv k j
  | inside hlive hinside hstep =>
    exact consistent_of_monitor hinv fun j => inCall_of_inside hinside hstep (hinv _ j)
  | @returnPush i k value next woken queue' hlive hinstr hstep =>
    have hother : ∀ j, j ≠ i → InCall k ((s.queue k).thread j) (prog.instr j (s.thread j)) →
        InCall k (queue'.thread j) (prog.instr j (s.thread j)) := by
      intro j hj hcall
      cases hstep with
      | @notifyOne _ j' hpc hwaiting =>
        by_cases hjj' : j = j'
        · subst hjj'
          rw [hwaiting] at hcall
          have hwoken : InCall k .woken (prog.instr j (s.thread j)) := hcall
          simpa [BlockingQueue.State.goto] using hwoken
        · simpa [BlockingQueue.State.goto, Function.update_of_ne hjj', Function.update_of_ne hj] using hcall
      | notifyNone hpc hnone => simpa [BlockingQueue.State.goto, Function.update_of_ne hj] using hcall
    exact consistent_of_return (idle_of_returnPush hinv hinstr hstep) fun k' j hj => inCall_of_monitor hinv (hother j hj) k'
  | @returnPop i k rc next queue' hlive hinstr hstep =>
    refine consistent_of_return (idle_of_returnPop hinv hinstr hstep) fun k' j hj => inCall_of_monitor hinv (fun hcall => ?_) k'
    obtain ⟨-, hpc⟩ := hstep
    simpa [BlockingQueue.State.goto, Function.update_of_ne hj] using hcall
  | act hlive hrunning hinstr => exact consistent_of_goto hinv (idle_of_act hinv (by simp [hinstr]) (by simp [hinstr]))
  | spawn hlive hrunning hinstr => exact consistent_of_goto hinv (idle_of_act hinv (by simp [hinstr]) (by simp [hinstr]))
  | join hlive hrunning hinstr hstarted hreturned =>
    exact consistent_of_goto hinv (idle_of_act hinv (by simp [hinstr]) (by simp [hinstr]))
  | throw hlive hrunning hinstr => exact hinv

/-! ### Every call moved to the step where it takes effect -/

/-- The state of a thread when a call that has taken effect counts as returned. -/
def absThread (s : State prog δ) (i : ι) : prog.State i :=
  match prog.instr i (s.thread i) with
  | .push k _ next => if ((s.queue k).thread i).owesNotification then next else s.thread i
  | .pop k next => (((s.queue k).thread i).result?.map next).getD (s.thread i)
  | _ => s.thread i

def abs (s : State prog δ) : Process.Threads.State prog δ :=
  ⟨fun k => (s.queue k).deque, absThread s, s.running, s.shared, s.aborted⟩

def label : Event ι α ε → Option (Process.Threads.Event ι α ε)
  | .monitor k (.pushFront i value) => some (.push i k value)
  | .monitor k (.popBack i rc) => some (.pop i k rc)
  | .monitor _ _ => none
  | .act i e => some (.act i e)
  | .spawn i j => some (.spawn i j)
  | .join i j => some (.join i j)
  | .throw i => some (.throw i)

section AbsThread

variable {i : ι}

omit [DecidableEq ι] [DecidableEq κ]

theorem absThread_push {k : κ} {value : α k} {next : prog.State i}
    (hinstr : prog.instr i (s.thread i) = .push k value next) :
    absThread s i = if ((s.queue k).thread i).owesNotification then next else s.thread i := by
  simp only [absThread, hinstr]

theorem absThread_pop {k : κ} {next : α k → prog.State i} (hinstr : prog.instr i (s.thread i) = .pop k next) :
    absThread s i = (((s.queue k).thread i).result?.map next).getD (s.thread i) := by
  simp only [absThread, hinstr]

/-- A thread in a call that has not taken effect is where it made the call. -/
theorem absThread_of_not_taken
    (hpending : ∀ k, ((s.queue k).thread i).owesNotification = false ∧ ((s.queue k).thread i).result? = none) :
    absThread s i = s.thread i := by
  cases hinstr : prog.instr i (s.thread i) with
  | push k value next => simp [absThread_push hinstr, hpending k]
  | pop k next => simp [absThread_pop hinstr, hpending k]
  | _ => simp only [absThread, hinstr]

theorem absThread_of_idle (hidle : ∀ k, (s.queue k).thread i = .idle) : absThread s i = s.thread i :=
  absThread_of_not_taken fun k => by simp [hidle k, Pc.owesNotification, Pc.result?]

theorem instr_abs (hidle : ∀ k, (s.queue k).thread i = .idle) :
    prog.instr i ((abs s).thread i) = prog.instr i (s.thread i) :=
  congrArg (prog.instr i) (absThread_of_idle hidle)

theorem absThread_congr (hthread : s'.thread i = s.thread i)
    (htaken : ∀ k, ((s'.queue k).thread i).owesNotification = ((s.queue k).thread i).owesNotification ∧
      ((s'.queue k).thread i).result? = ((s.queue k).thread i).result?) : absThread s' i = absThread s i := by
  cases hinstr : prog.instr i (s.thread i) with
  | push k value next => rw [absThread_push hinstr, absThread_push (hthread ▸ hinstr), (htaken k).1, hthread]
  | pop k next => rw [absThread_pop hinstr, absThread_pop (hthread ▸ hinstr), (htaken k).2, hthread]
  | _ => simp only [absThread, hinstr, hthread]

end AbsThread

/-! ### The simulation -/

structure Inv (s : State prog δ) : Prop where
  consistent : Consistent s
  running : ∀ k i, (s.queue k).thread i ≠ .idle → s.running i = true

omit [DecidableEq κ] in
/-- Only a call takes a thread out of its idle position. -/
theorem idle_of_step {k : κ} {q q' : BlockingQueue.State ι (α k)} {e : BlockingQueue.Event ι (α k)}
    (hstep : BlockingQueue.Step q e q') {j : ι} (hidle : q.thread j = .idle)
    (hpush : ∀ value, e ≠ .callPush j value) (hpop : e ≠ .callPop j) : q'.thread j = .idle := by
  have hgoto : ∀ {i pc}, q.thread i ≠ .idle → (q.goto i pc).thread j = .idle := by
    intro i pc hpc
    have hj : j ≠ i := fun heq => hpc (heq ▸ hidle)
    simpa [BlockingQueue.State.goto, Function.update_of_ne hj] using hidle
  have htests : ∀ {pc : Pc (α k)}, pc.tests = true → pc ≠ .idle := by
    intro pc htests heq
    simp [heq, Pc.tests] at htests
  cases hstep with
  | @callPush i value hpc =>
    have hj : j ≠ i := fun heq => hpush value (by rw [heq])
    simpa [BlockingQueue.State.goto, Function.update_of_ne hj] using hidle
  | @callPop i hpc =>
    have hj : j ≠ i := fun heq => hpop (by rw [heq])
    simpa [BlockingQueue.State.goto, Function.update_of_ne hj] using hidle
  | lock hfree hpc => exact hgoto fun heq => by simp [heq, Pc.locked] at hpc
  | pushFront hpc => exact hgoto (by simp [hpc])
  | unlock hpc => exact hgoto (by simp [hpc])
  | @notifyOne i j' hpc hwaiting =>
    have hj : j ≠ j' := fun heq => by simp [← heq, hidle] at hwaiting
    have hfirst : (q.goto i .idle).thread j = .idle := hgoto (by simp [hpc])
    simpa [BlockingQueue.State.goto, Function.update_of_ne hj] using hfirst
  | notifyNone hpc hnone => exact hgoto (by simp [hpc])
  | wait hpc hempty => exact hgoto (htests hpc)
  | popBack hpc hpop => exact hgoto (htests hpc)
  | returned hpc => exact hgoto (by simp [hpc])
  | wakeSpuriously hpc => exact hgoto (by simp [hpc])

/-- A thread that a step of a monitor leaves in a call was running, if it was when it called. -/
theorem running_of_monitor {k : κ} {queue' : BlockingQueue.State ι (α k)} {e : BlockingQueue.Event ι (α k)}
    (hinv : Inv s) (hstep : BlockingQueue.Step (s.queue k) e queue')
    (hpush : ∀ i value, e = .callPush i value → s.running i = true)
    (hpop : ∀ i, e = .callPop i → s.running i = true) (k' : κ) (j : ι)
    (hcall : (Function.update s.queue k queue' k').thread j ≠ .idle) : s.running j = true := by
  by_cases hk : k' = k
  · subst hk
    rw [Function.update_self] at hcall
    by_contra hrunning
    refine hcall (idle_of_step hstep ?_ (fun value heq => hrunning (hpush j value heq)) fun heq => hrunning (hpop j heq))
    by_contra hcalled
    exact hrunning (hinv.running k' j hcalled)
  · rw [Function.update_of_ne hk] at hcall
    exact hinv.running k' j hcall

theorem inv_step {e : Event ι α ε} (hinv : Inv s) (hstep : Step effect s e s') : Inv s' := by
  refine ⟨consistent_step hinv.consistent hstep, ?_⟩
  cases hstep with
  | @callPush i k value next queue' hlive hrunning hinstr hstep =>
    refine running_of_monitor hinv hstep (fun j value heq => ?_) fun j heq => by cases heq
    cases heq
    exact hrunning
  | @callPop i k next queue' hlive hrunning hinstr hstep =>
    refine running_of_monitor hinv hstep (fun j value heq => by cases heq) fun j heq => ?_
    cases heq
    exact hrunning
  | inside hlive hinside hstep =>
    refine running_of_monitor hinv hstep (fun j value heq => ?_) fun j heq => ?_
    · rw [heq] at hinside
      cases hinside
    · rw [heq] at hinside
      cases hinside
  | returnPush hlive hinstr hstep =>
    exact running_of_monitor hinv hstep (fun j value heq => by cases heq) fun j heq => by cases heq
  | returnPop hlive hinstr hstep =>
    exact running_of_monitor hinv hstep (fun j value heq => by cases heq) fun j heq => by cases heq
  | act hlive hrunning hinstr => exact hinv.running
  | @spawn i j next hlive hrunning hinstr =>
    intro k j' hcall
    by_cases hj : j' = j
    · simp [hj]
    · simpa [Function.update_of_ne hj] using hinv.running k j' hcall
  | join hlive hrunning hinstr hstarted hreturned => exact hinv.running
  | throw hlive hrunning hinstr => exact hinv.running

omit [DecidableEq κ] in
theorem abs_goto {i : ι} {next : prog.State i} (hidle : ∀ k, (s.queue k).thread i = .idle) :
    abs (s.goto i next) = (abs s).goto i next := by
  refine Process.Threads.State.ext rfl ?_ rfl rfl rfl
  funext j
  by_cases hj : j = i
  · subst hj
    simpa [abs, State.goto, Process.Threads.State.goto] using absThread_of_idle (s := s.goto j next) hidle
  · have hsame : absThread (s.goto i next) j = absThread s j :=
      absThread_congr (Function.update_of_ne hj _ _) fun k => ⟨rfl, rfl⟩
    simpa [abs, Process.Threads.State.goto, Function.update_of_ne hj] using hsame

/-- A step of a monitor changes its deque, and the state that the thread that makes it counts as
being in. -/
theorem abs_monitor {k : κ} {queue' : BlockingQueue.State ι (α k)} {e : BlockingQueue.Event ι (α k)} {i : ι}
    {thread' : ∀ i, prog.State i} {next : prog.State i} (hi : e.actor = i)
    (hstep : BlockingQueue.Step (s.queue k) e queue') (hother : ∀ j, j ≠ i → thread' j = s.thread j)
    (hactor : absThread { s with thread := thread', queue := Function.update s.queue k queue' } i = next) :
    abs { s with thread := thread', queue := Function.update s.queue k queue' } =
      { (abs s).goto i next with queue := Function.update (abs s).queue k queue'.deque } := by
  subst hi
  refine Process.Threads.State.ext ?_ ?_ rfl rfl rfl
  · funext k'
    by_cases hk : k' = k
    · subst hk
      simp [abs]
    · simp [abs, Function.update_of_ne hk]
  · funext j
    by_cases hj : j = e.actor
    · subst hj
      simpa [abs, Process.Threads.State.goto] using hactor
    · have hsame : absThread { s with thread := thread', queue := Function.update s.queue k queue' } j = absThread s j := by
        refine absThread_congr (hother j hj) fun k' => ?_
        by_cases hk : k' = k
        · subst hk
          simpa using taken_of_ne_actor hstep hj
        · simp [Function.update_of_ne hk]
      simpa [abs, Process.Threads.State.goto, Function.update_of_ne hj] using hsame

theorem abs_silent {k : κ} {queue' : BlockingQueue.State ι (α k)} {e : BlockingQueue.Event ι (α k)} {i : ι}
    {thread' : ∀ i, prog.State i} (hi : e.actor = i) (hstep : BlockingQueue.Step (s.queue k) e queue')
    (hother : ∀ j, j ≠ i → thread' j = s.thread j) (hdeque : queue'.deque = (s.queue k).deque)
    (hactor : absThread { s with thread := thread', queue := Function.update s.queue k queue' } i = absThread s i) :
    abs { s with thread := thread', queue := Function.update s.queue k queue' } = abs s := by
  rw [abs_monitor hi hstep hother hactor, hdeque]
  refine Process.Threads.State.ext ?_ ?_ rfl rfl rfl
  · exact Function.update_eq_self k (abs s).queue
  · exact Function.update_eq_self i (abs s).thread

omit [DecidableEq ι] in
/-- What one thread does inside a monitor without taking effect changes nothing. -/
theorem absThread_inside {k : κ} {queue' : BlockingQueue.State ι (α k)} {i : ι} (pc : Pc (α k))
    (hthread : queue'.thread i = pc) (howes : pc.owesNotification = ((s.queue k).thread i).owesNotification)
    (hresult : pc.result? = ((s.queue k).thread i).result?) :
    absThread { s with queue := Function.update s.queue k queue' } i = absThread s i := by
  refine absThread_congr rfl fun k' => ?_
  by_cases hk : k' = k
  · subst hk
    simpa [hthread] using ⟨howes, hresult⟩
  · simp [Function.update_of_ne hk]

omit [DecidableEq ι] in
theorem absThread_pushed {k : κ} {queue' : BlockingQueue.State ι (α k)} {i : ι} {value : α k} {next : prog.State i}
    (hinstr : prog.instr i (s.thread i) = .push k value next) (howes : (queue'.thread i).owesNotification = true) :
    absThread { s with queue := Function.update s.queue k queue' } i = next := by
  simp [absThread, hinstr, howes]

omit [DecidableEq ι] in
theorem absThread_popped {k : κ} {queue' : BlockingQueue.State ι (α k)} {i : ι} {rc : α k} {next : α k → prog.State i}
    (hinstr : prog.instr i (s.thread i) = .pop k next) (hresult : (queue'.thread i).result? = some rc) :
    absThread { s with queue := Function.update s.queue k queue' } i = next rc := by
  simp [absThread, hinstr, hresult]

theorem not_taken_of_locked {β : Type} {pc pc' : Pc β} (hlocked : pc.locked = some pc') :
    pc'.owesNotification = pc.owesNotification ∧ pc'.result? = pc.result? := by
  cases pc <;> cases hlocked <;> exact ⟨rfl, rfl⟩

theorem not_taken_of_tests {β : Type} {pc : Pc β} (htests : pc.tests = true) :
    pc.owesNotification = false ∧ pc.result? = none := by
  cases pc <;> simp_all [Pc.tests, Pc.owesNotification, Pc.result?]

/-- What is done inside a monitor is a push or a pop of the plain queue, or nothing. -/
theorem abs_inside {k : κ} {e : BlockingQueue.Event ι (α k)} {queue' : BlockingQueue.State ι (α k)} (hinv : Inv s)
    (hlive : s.aborted = false) (hinside : e.isInside = true) (hstep : BlockingQueue.Step (s.queue k) e queue') :
    AbstractStep (Process.Threads.Step effect) (abs s) (label (.monitor k e : Event ι α ε))
      (abs { s with queue := Function.update s.queue k queue' }) := by
  have hqueue := hstep
  cases hstep with
  | callPush value hpc => cases hinside
  | callPop hpc => cases hinside
  | @lock i pc hfree hpc =>
    obtain ⟨howes, hresult⟩ := not_taken_of_locked hpc
    exact abs_silent (i := i) rfl hqueue (fun _ _ => rfl) rfl
      (absThread_inside pc (by simp [BlockingQueue.State.goto]) howes hresult)
  | @pushFront i value hpc =>
    obtain ⟨next, hinstr⟩ : ∃ next, prog.instr i (s.thread i) = .push k value next := by
      have hcall := hinv.consistent k i
      rwa [hpc] at hcall
    have hbefore : absThread s i = s.thread i := by simp [absThread_push hinstr, hpc, Pc.owesNotification]
    rw [abs_monitor (i := i) rfl hqueue (fun _ _ => rfl) (absThread_pushed hinstr ?_)]
    · refine .push hlive (hinv.running k i (by simp [hpc])) ?_
      change prog.instr i (absThread s i) = _
      rw [hbefore, hinstr]
    · simp [BlockingQueue.State.goto, Pc.owesNotification]
  | @unlock i hpc =>
    exact abs_silent (i := i) rfl hqueue (fun _ _ => rfl) rfl
      (absThread_inside .notifying (by simp [BlockingQueue.State.goto]) (by simp [hpc, Pc.owesNotification])
        (by simp [hpc, Pc.result?]))
  | notifyOne hpc hwaiting => cases hinside
  | notifyNone hpc hnone => cases hinside
  | @wait i hpc hempty =>
    obtain ⟨howes, hresult⟩ := not_taken_of_tests hpc
    exact abs_silent (i := i) rfl hqueue (fun _ _ => rfl) rfl
      (absThread_inside .waiting (by simp [BlockingQueue.State.goto]) howes.symm hresult.symm)
  | @popBack i rc deque' hpc hpop =>
    obtain ⟨next, hinstr⟩ := pop_of_tests hpc (hinv.consistent k i)
    obtain ⟨-, hresult⟩ := not_taken_of_tests hpc
    have hbefore : absThread s i = s.thread i := by simp [absThread_pop hinstr, hresult]
    have hcalled : (s.queue k).thread i ≠ .idle := fun heq => by simp [heq, Pc.tests] at hpc
    rw [abs_monitor (i := i) rfl hqueue (fun _ _ => rfl) (absThread_popped hinstr ?_)]
    · refine .pop hlive (hinv.running k i hcalled) ?_ hpop
      change prog.instr i (absThread s i) = _
      rw [hbefore, hinstr]
    · simp [BlockingQueue.State.goto, Pc.result?]
  | returned hpc => cases hinside
  | @wakeSpuriously i hpc =>
    exact abs_silent (i := i) rfl hqueue (fun _ _ => rfl) rfl
      (absThread_inside .woken (by simp [BlockingQueue.State.goto]) (by simp [hpc, Pc.owesNotification])
        (by simp [hpc, Pc.result?]))

/-- Threads on monitors run as threads on plain queues. -/
theorem refines (prog : Program ι α ε) (effect : ε → δ → δ) :
    Process.Refines (Step effect) (Process.Threads.Step effect) (fun s : State prog δ => Inv s) abs label where
  inv_step s e s' hinv hstep := inv_step hinv hstep
  abs_step s e s' hinv hstep := by
    cases hstep with
    | @callPush i k value next queue' hlive hrunning hinstr hstep =>
      have hqueue := hstep
      cases hstep with
      | callPush _ hpc =>
        exact abs_silent (i := i) rfl hqueue (fun _ _ => rfl) rfl
          (absThread_inside (.pushEntry value) (by simp [BlockingQueue.State.goto])
            (by simp [hpc, Pc.owesNotification]) (by simp [hpc, Pc.result?]))
    | @callPop i k next queue' hlive hrunning hinstr hstep =>
      have hqueue := hstep
      cases hstep with
      | callPop hpc =>
        exact abs_silent (i := i) rfl hqueue (fun _ _ => rfl) rfl
          (absThread_inside .popEntry (by simp [BlockingQueue.State.goto])
            (by simp [hpc, Pc.owesNotification]) (by simp [hpc, Pc.result?]))
    | inside hlive hinside hstep => exact abs_inside hinv hlive hinside hstep
    | @returnPush i k value next woken queue' hlive hinstr hstep =>
      have hpc : (s.queue k).thread i = .notifying := by cases hstep <;> assumption
      have hdeque : queue'.deque = (s.queue k).deque := by cases hstep <;> rfl
      refine abs_silent (i := i) rfl hstep (fun j hj => Function.update_of_ne hj _ _) hdeque ?_
      rw [absThread_of_idle (idle_of_returnPush hinv.consistent hinstr hstep), absThread_push hinstr, hpc]
      exact Function.update_self _ _ _
    | @returnPop i k rc next queue' hlive hinstr hstep =>
      have hpc : (s.queue k).thread i = .popped rc := by cases hstep; assumption
      have hdeque : queue'.deque = (s.queue k).deque := by cases hstep; rfl
      refine abs_silent (i := i) rfl hstep (fun j hj => Function.update_of_ne hj _ _) hdeque ?_
      rw [absThread_of_idle (idle_of_returnPop hinv.consistent hinstr hstep), absThread_pop hinstr, hpc]
      exact Function.update_self _ _ _
    | @act i e next hlive hrunning hinstr =>
      have hidle := idle_of_act hinv.consistent (i := i) (by simp [hinstr]) (by simp [hinstr])
      change Process.Threads.Step effect (abs s) _ { abs (s.goto i next) with shared := effect e s.shared }
      rw [abs_goto hidle]
      exact .act hlive hrunning ((instr_abs hidle).trans hinstr)
    | @spawn i j next hlive hrunning hinstr =>
      have hidle := idle_of_act hinv.consistent (i := i) (by simp [hinstr]) (by simp [hinstr])
      change Process.Threads.Step effect (abs s) _ { abs (s.goto i next) with running := Function.update s.running j true }
      rw [abs_goto hidle]
      exact .spawn hlive hrunning ((instr_abs hidle).trans hinstr)
    | @join i j next hlive hrunning hinstr hstarted hreturned =>
      have hidle := idle_of_act hinv.consistent (i := i) (by simp [hinstr]) (by simp [hinstr])
      have hidle' := idle_of_act hinv.consistent (i := j) (by simp [hreturned]) (by simp [hreturned])
      rw [abs_goto hidle]
      exact .join hlive hrunning ((instr_abs hidle).trans hinstr) hstarted ((instr_abs hidle').trans hreturned)
    | @throw i hlive hrunning hinstr =>
      have hidle := idle_of_act hinv.consistent (i := i) (by simp [hinstr]) (by simp [hinstr])
      exact .throw hlive hrunning ((instr_abs hidle).trans hinstr)

omit [DecidableEq ι] [DecidableEq κ] in
theorem inv_start (prog : Program ι α ε) (shared : δ) : Inv (start prog shared) :=
  ⟨fun _ _ => trivial, fun _ _ hcall => absurd rfl hcall⟩

omit [DecidableEq ι] [DecidableEq κ] in
theorem abs_start (prog : Program ι α ε) (shared : δ) :
    abs (start prog shared) = Process.Threads.start prog shared := by
  refine Process.Threads.State.ext rfl ?_ rfl rfl rfl
  funext i
  exact absThread_of_idle fun _ => rfl

/-- Every run on monitors is a run on plain queues, seen at the steps where calls take effect. -/
theorem abs_run {shared : δ} {evs : List (Event ι α ε)} (hrun : History prog effect shared evs s) :
    Process.Threads.History prog effect shared (evs.filterMap label) (abs s) := by
  have hrun' := (refines prog effect).run (inv_start prog shared) hrun
  rwa [abs_start] at hrun'

/-! ### Where only spurious wake-ups are left -/

/-- The monitors themselves only ever run as monitors do. -/
theorem exists_run_queue {shared : δ} {evs : List (Event ι α ε)} (hrun : History prog effect shared evs s) (k : κ) :
    ∃ evs', Run BlockingQueue.Step BlockingQueue.State.start evs' (s.queue k) := by
  refine hrun.invariant (motive := fun _ s => ∃ evs', Run BlockingQueue.Step BlockingQueue.State.start evs' (s.queue k))
    ⟨[], .nil⟩ ?_
  intro _ s e s' _ hbefore hstep
  obtain ⟨evs', hbefore⟩ := hbefore
  have hmonitor : ∀ {k'} {e : BlockingQueue.Event ι (α k')} {queue'}, BlockingQueue.Step (s.queue k') e queue' →
      ∃ evs', Run BlockingQueue.Step BlockingQueue.State.start evs' (Function.update s.queue k' queue' k) := by
    intro k' e queue' hstep
    by_cases hk : k = k'
    · subst hk
      exact ⟨_, by simpa using hbefore.snoc hstep⟩
    · exact ⟨evs', by simpa [Function.update_of_ne hk] using hbefore⟩
  cases hstep with
  | callPush _ _ _ hstep => exact hmonitor hstep
  | callPop _ _ _ hstep => exact hmonitor hstep
  | inside _ _ hstep => exact hmonitor hstep
  | returnPush _ _ hstep => exact hmonitor hstep
  | returnPop _ _ hstep => exact hmonitor hstep
  | _ => exact ⟨evs', hbefore⟩

section Quiet

variable {k : κ} {i : ι} (hquiet : Quiet effect s) (hlive : s.aborted = false)
include hquiet hlive

theorem not_inside_of_quiet {e : BlockingQueue.Event ι (α k)} {queue' : BlockingQueue.State ι (α k)}
    (hinside : e.isInside = true) (hstep : BlockingQueue.Step (s.queue k) e queue') : ∃ i, e = .wakeSpuriously i := by
  have hspurious := hquiet _ _ (.inside hlive hinside hstep)
  cases e with
  | wakeSpuriously i => exact ⟨i, rfl⟩
  | _ => cases hspurious

/-- Nobody holds a mutex: whoever did could go on. -/
theorem owner_of_quiet (hinv : Inv s) (hmutex : MutexHeld (s.queue k)) : (s.queue k).owner = none := by
  cases howner : (s.queue k).owner with
  | none => rfl
  | some i =>
    exfalso
    have hheld := (hmutex i).mpr howner
    have hcall := hinv.consistent k i
    have htests : ((s.queue k).thread i).tests = true → False := by
      intro htests
      cases hpop : (s.queue k).deque.pop with
      | none =>
        have hstep := BlockingQueue.Step.wait htests (Fifo.pop_eq_none_iff.mp hpop)
        obtain ⟨_, heq⟩ := not_inside_of_quiet hquiet hlive rfl hstep
        cases heq
      | some popped =>
        obtain ⟨rc, deque'⟩ := popped
        have hstep := BlockingQueue.Step.popBack htests hpop
        obtain ⟨_, heq⟩ := not_inside_of_quiet hquiet hlive rfl hstep
        cases heq
    cases hpc : (s.queue k).thread i with
    | pushLocked value =>
      obtain ⟨_, heq⟩ := not_inside_of_quiet hquiet hlive rfl (.pushFront hpc)
      cases heq
    | pushed =>
      obtain ⟨_, heq⟩ := not_inside_of_quiet hquiet hlive rfl (.unlock hpc)
      cases heq
    | testing => exact htests (by rw [hpc]; rfl)
    | retesting => exact htests (by rw [hpc]; rfl)
    | popped rc =>
      rw [hpc] at hcall
      obtain ⟨next, hinstr⟩ := hcall
      cases hquiet _ _ (.returnPop hlive hinstr (.returned hpc))
    | _ => simp [hpc, Pc.holdsMutex] at hheld

theorem idle_or_waiting_of_quiet (hinv : Inv s) (hmutex : MutexHeld (s.queue k)) :
    (s.queue k).thread i = .idle ∨ (s.queue k).thread i = .waiting := by
  have hfree := owner_of_quiet hquiet hlive hinv hmutex
  have hlock : ∀ {pc}, ((s.queue k).thread i).locked = some pc → False := by
    intro pc hpc
    obtain ⟨_, heq⟩ := not_inside_of_quiet hquiet hlive rfl (.lock hfree hpc)
    cases heq
  have hheld : ((s.queue k).thread i).holdsMutex = true → False := by
    intro hheld
    rw [(hmutex i).mp hheld] at hfree
    cases hfree
  cases hpc : (s.queue k).thread i with
  | idle => exact Or.inl rfl
  | waiting => exact Or.inr rfl
  | pushEntry value => exact (hlock (by rw [hpc]; rfl)).elim
  | popEntry => exact (hlock (by rw [hpc]; rfl)).elim
  | woken => exact (hlock (by rw [hpc]; rfl)).elim
  | notifying =>
    exfalso
    have hcall := hinv.consistent k i
    rw [hpc] at hcall
    obtain ⟨value, next, hinstr⟩ := hcall
    by_cases hwaiting : ∃ j, (s.queue k).thread j = .waiting
    · obtain ⟨j, hwaiting⟩ := hwaiting
      cases hquiet _ _ (.returnPush hlive hinstr (.notifyOne hpc hwaiting))
    · cases hquiet _ _ (.returnPush hlive hinstr (.notifyNone hpc fun j hj => hwaiting ⟨j, hj⟩))
  | _ => exact (hheld (by rw [hpc]; rfl)).elim

end Quiet

theorem noLostWakeUp_of_run [Fintype ι] {β : Type} {evs : List (BlockingQueue.Event ι β)}
    {q : BlockingQueue.State ι β} (hrun : Run BlockingQueue.Step BlockingQueue.State.start evs q) : NoLostWakeUp q := by
  refine hrun.invariant (motive := fun _ q => NoLostWakeUp q) ?_ fun _ _ _ _ _ hinv hstep => noLostWakeUp_step hinv hstep
  intro hwaiting
  obtain ⟨i, hi⟩ := hwaiting
  cases hi

omit [DecidableEq ι] in
/-- Where nobody is about to notify or has been woken, somebody waits only for an empty deque. -/
theorem items_of_waiting [Fintype ι] {β : Type} {q : BlockingQueue.State ι β} (hinv : NoLostWakeUp q)
    (hquiet : ∀ i, q.thread i = .idle ∨ q.thread i = .waiting) {i : ι} (hwaiting : q.thread i = .waiting) :
    q.deque.items = [] := by
  have hpending : q.pendingNotifications = 0 := by
    rw [BlockingQueue.State.pendingNotifications, Finset.card_eq_zero, Finset.filter_eq_empty_iff]
    intro j _
    rcases hquiet j with hj | hj <;> simp [hj, Pc.owesNotification]
  have hwoken : q.wokenConsumers = 0 := by
    rw [BlockingQueue.State.wokenConsumers, Finset.card_eq_zero, Finset.filter_eq_empty_iff]
    intro j _
    rcases hquiet j with hj | hj <;> simp [hj, Pc.isWoken]
  have hbound := hinv ⟨i, hwaiting⟩
  rw [hpending, hwoken] at hbound
  exact List.length_eq_zero_iff.mp (Nat.le_zero.mp hbound)

section QuietRuns

variable {shared : δ} {evs : List (Event ι α ε)} (hrun : History prog effect shared evs s)
  (hquiet : Quiet effect s)
include hrun hquiet

theorem pcs_of_quiet (hlive : s.aborted = false) (k : κ) (i : ι) :
    (s.queue k).thread i = .idle ∨ (s.queue k).thread i = .waiting := by
  obtain ⟨evs', hqueue⟩ := exists_run_queue hrun k
  exact idle_or_waiting_of_quiet hquiet hlive ((refines prog effect).inv_of_run (inv_start prog shared) hrun)
    (mutexHeld_of_run hqueue)

/-- Nobody is in the part of a call where it has taken effect. -/
theorem abs_thread_of_quiet (hlive : s.aborted = false) (i : ι) : (abs s).thread i = s.thread i := by
  apply absThread_of_not_taken
  intro k
  rcases pcs_of_quiet hrun hquiet hlive k i with hpc | hpc <;> simp [hpc, Pc.owesNotification, Pc.result?]

/-- If nothing can happen on the monitors but spurious wake-ups, nothing can happen on the plain
queues. -/
theorem terminal_of_quiet [Fintype ι] : Terminal (Process.Threads.Step effect) (abs s) := by
  have hinv := (refines prog effect).inv_of_run (inv_start prog shared) hrun
  have hpcs := pcs_of_quiet hrun hquiet
  have hthread := abs_thread_of_quiet hrun hquiet
  intro e s' hstep
  cases hstep with
  | @push i k value next hlive hrunning hinstr =>
    rw [hthread hlive] at hinstr
    rcases hpcs hlive k i with hpc | hpc
    · cases hquiet _ _ (.callPush hlive hrunning hinstr (.callPush value hpc))
    · have hcall := hinv.consistent k i
      rw [hpc] at hcall
      obtain ⟨_, hpop⟩ := hcall
      rw [hinstr] at hpop
      cases hpop
  | @pop i k value queue' next hlive hrunning hinstr hpop =>
    rw [hthread hlive] at hinstr
    rcases hpcs hlive k i with hpc | hpc
    · cases hquiet _ _ (.callPop hlive hrunning hinstr (.callPop hpc))
    · obtain ⟨evs', hqueue⟩ := exists_run_queue hrun k
      have hempty := items_of_waiting (noLostWakeUp_of_run hqueue) (hpcs hlive k) hpc
      have hitems := Fifo.pop_eq_some_iff.mp hpop
      change (s.queue k).deque.items = _ at hitems
      rw [hempty] at hitems
      cases hitems
  | @act i e next hlive hrunning hinstr =>
    rw [hthread hlive] at hinstr
    cases hquiet _ _ (.act hlive hrunning hinstr)
  | @spawn i j next hlive hrunning hinstr =>
    rw [hthread hlive] at hinstr
    cases hquiet _ _ (.spawn hlive hrunning hinstr)
  | @join i j next hlive hrunning hinstr hstarted hreturned =>
    rw [hthread hlive] at hinstr hreturned
    cases hquiet _ _ (.join hlive hrunning hinstr hstarted hreturned)
  | @throw i hlive hrunning hinstr =>
    rw [hthread hlive] at hinstr
    cases hquiet _ _ (.throw hlive hrunning hinstr)

end QuietRuns

end Threads

end ParallelWatermark.BlockingQueue
