import Mathlib.Algebra.BigOperators.Group.Finset.Basic
import ParallelWatermark.Proof.BlockingQueue.Threads

/-!
# Every step on blocking queues costs, but a spurious wake-up

Each call has a rank of its own, out of which its steps inside the monitor are paid, and when it takes
effect the plain program pays for what is left of it. A pusher also pays for the consumer that its
notification may wake, which may find the deque empty again and go back to waiting.
-/

namespace ParallelWatermark.BlockingQueue.Threads

open Process

variable {ι κ ε δ : Type} {α : κ → Type} [DecidableEq ι] [DecidableEq κ] {prog : Program ι α ε}
  {effect : ε → δ → δ} {s s' : State prog δ}

/-- Units still to be spent in a call: a pusher pays for the consumer it may wake. -/
def callRank {β : Type} : Pc β → Nat
  | .idle => 10
  | .pushEntry _ => 9
  | .pushLocked _ => 8
  | .pushed => 15
  | .notifying => 14
  | .popEntry => 9
  | .testing => 8
  | .waiting => 0
  | .woken => 3
  | .retesting => 2
  | .popped _ => 11

def threadRank (s : State prog δ) (i : ι) : Nat :=
  match prog.instr i (s.thread i) with
  | .push k _ _ => callRank ((s.queue k).thread i)
  | .pop k _ => callRank ((s.queue k).thread i)
  | _ => 10

/-- When a call takes effect it gets new units from the rank of the plain program. -/
def rank [Fintype ι] (plainRank : Process.Threads.State prog δ → Nat) (s : State prog δ) : Nat :=
  16 * plainRank (abs s) + ∑ i, threadRank s i

section ThreadRank

omit [DecidableEq ι] [DecidableEq κ]

theorem threadRank_of_idle {i : ι} (hidle : ∀ k, (s.queue k).thread i = .idle) : threadRank s i = 10 := by
  cases hinstr : prog.instr i (s.thread i) with
  | push k value next => simp only [threadRank, hinstr, hidle k, callRank]
  | pop k next => simp only [threadRank, hinstr, hidle k, callRank]
  | _ => simp only [threadRank, hinstr]

theorem threadRank_of_push {i : ι} {k : κ} {value : α k} {next : prog.State i}
    (hinstr : prog.instr i (s.thread i) = .push k value next) :
    threadRank s i = callRank ((s.queue k).thread i) := by
  simp only [threadRank, hinstr]

theorem threadRank_of_pop {i : ι} {k : κ} {next : α k → prog.State i}
    (hinstr : prog.instr i (s.thread i) = .pop k next) : threadRank s i = callRank ((s.queue k).thread i) := by
  simp only [threadRank, hinstr]

theorem threadRank_congr {i : ι} (hthread : s'.thread i = s.thread i)
    (hpc : ∀ k, (s'.queue k).thread i = (s.queue k).thread i) : threadRank s' i = threadRank s i := by
  simp only [threadRank, hthread, hpc]

end ThreadRank

/-- A sum that changes in one place. -/
theorem sum_frame [Fintype ι] {f g : ι → Nat} {i : ι} (hother : ∀ j, j ≠ i → g j = f j) :
    (∑ j, g j) + f i = (∑ j, f j) + g i := by
  have hrest : ∑ j ∈ Finset.univ.erase i, g j = ∑ j ∈ Finset.univ.erase i, f j :=
    Finset.sum_congr rfl fun j hj => hother j (Finset.ne_of_mem_erase hj)
  rw [← Finset.add_sum_erase _ g (Finset.mem_univ i), ← Finset.add_sum_erase _ f (Finset.mem_univ i), hrest]
  omega

/-- A step of a monitor moves nobody else, but for a consumer that it wakes. -/
theorem thread_of_ne_actor {β : Type} {q q' : BlockingQueue.State ι β} {e : BlockingQueue.Event ι β}
    (hstep : BlockingQueue.Step q e q') {j : ι} (hj : j ≠ e.actor) (hwoken : ∀ i, e ≠ .notifyOne i (some j)) :
    q'.thread j = q.thread j := by
  cases hstep with
  | @notifyOne i k hpc hwaiting =>
    have hjk : j ≠ k := fun heq => hwoken i (by rw [heq])
    have hji : j ≠ i := hj
    simp [BlockingQueue.State.goto, Function.update_of_ne hjk, Function.update_of_ne hji]
  | _ => exact Function.update_of_ne hj _ _

/-- What a step of a monitor costs, when it wakes nobody. -/
theorem sum_threadRank_monitor [Fintype ι] {k : κ} {queue' : BlockingQueue.State ι (α k)} {i : ι}
    {e : BlockingQueue.Event ι (α k)} (thread' : ∀ i, prog.State i) (hi : e.actor = i)
    (hstep : BlockingQueue.Step (s.queue k) e queue') (hwoken : ∀ i j, e ≠ .notifyOne i (some j))
    (hother : ∀ j, j ≠ i → thread' j = s.thread j) :
    (∑ j, threadRank { s with thread := thread', queue := Function.update s.queue k queue' } j) + threadRank s i =
      (∑ j, threadRank s j) +
        threadRank { s with thread := thread', queue := Function.update s.queue k queue' } i := by
  apply sum_frame
  intro j hj
  refine threadRank_congr (hother j hj) fun k' => ?_
  by_cases hk : k' = k
  · subst hk
    simpa using thread_of_ne_actor hstep (hi ▸ hj) fun i => hwoken i j
  · simp [Function.update_of_ne hk]

omit [DecidableEq ι] [DecidableEq κ] in
theorem called_of_ne_idle {σ : Type} {k : κ} {pc : Pc (α k)} {instr : Instr ι α ε σ} (hcall : InCall k pc instr)
    (hpc : pc ≠ .idle) : (∃ value next, instr = .push k value next) ∨ ∃ next, instr = .pop k next := by
  cases pc with
  | idle => exact absurd rfl hpc
  | pushEntry value => obtain ⟨next, heq⟩ := hcall; exact Or.inl ⟨value, next, heq⟩
  | pushLocked value => obtain ⟨next, heq⟩ := hcall; exact Or.inl ⟨value, next, heq⟩
  | pushed => exact Or.inl hcall
  | notifying => exact Or.inl hcall
  | _ => exact Or.inr hcall


/-! ### Steps of one monitor -/

section Monitor

variable {β : Type} {q q' : BlockingQueue.State ι β} {e : BlockingQueue.Event ι β}

/-- What the plain program pays when a call takes effect. -/
def payment : BlockingQueue.Event ι β → Nat
  | .pushFront _ _ => 16
  | .popBack _ _ => 16
  | _ => 0

omit [DecidableEq ι] in
theorem callRank_locked {pc pc' : Pc β} (hlocked : pc.locked = some pc') : callRank pc' < callRank pc := by
  cases pc <;> cases hlocked <;> simp [callRank]

omit [DecidableEq ι] in
theorem callRank_tests {pc : Pc β} (htests : pc.tests = true) : 2 ≤ callRank pc := by
  cases pc <;> simp_all [Pc.tests, callRank]

theorem callRank_inside (hinside : e.isInside = true) (hstep : BlockingQueue.Step q e q') :
    q.thread e.actor ≠ .idle ∧
      ((∀ i, e ≠ .wakeSpuriously i) → callRank (q'.thread e.actor) < callRank (q.thread e.actor) + payment e) ∧
      callRank (q'.thread e.actor) < callRank (q.thread e.actor) + payment e + 4 := by
  have hself : ∀ i pc, (q.goto i pc).thread i = pc := fun i pc => Function.update_self _ _ _
  have hsplit : ∀ {a b : Nat} {P : Prop}, a < b → (P → a < b) ∧ a < b + 4 := fun hlt => ⟨fun _ => hlt, by omega⟩
  cases hstep with
  | callPush value hpc => cases hinside
  | callPop hpc => cases hinside
  | @lock i pc hfree hpc =>
    have hlt := callRank_locked hpc
    refine ⟨fun hidle => ?_, hsplit ?_⟩
    · change q.thread i = .idle at hidle
      rw [hidle] at hpc
      cases hpc
    · simpa [Event.actor, payment, hself] using hlt
  | @pushFront i value hpc =>
    exact ⟨by simp [Event.actor, hpc], hsplit (by simp [Event.actor, payment, hself, hpc, callRank])⟩
  | @unlock i hpc =>
    exact ⟨by simp [Event.actor, hpc], hsplit (by simp [Event.actor, payment, hself, hpc, callRank])⟩
  | notifyOne hpc hwaiting => cases hinside
  | notifyNone hpc hnone => cases hinside
  | @wait i hpc hempty =>
    have hle := callRank_tests hpc
    refine ⟨fun hidle => ?_, hsplit ?_⟩
    · change q.thread i = .idle at hidle
      simp [hidle, Pc.tests] at hpc
    · have hafter : callRank ((q.goto i .waiting).thread i) = 0 := by rw [hself]; rfl
      change callRank ((q.goto i .waiting).thread i) < callRank (q.thread i) + 0
      omega
  | @popBack i rc deque' hpc hpop =>
    have hle := callRank_tests hpc
    refine ⟨fun hidle => ?_, hsplit ?_⟩
    · change q.thread i = .idle at hidle
      simp [hidle, Pc.tests] at hpc
    · have hafter : callRank ((q.goto i (.popped rc)).thread i) = 11 := by rw [hself]; rfl
      change callRank ((q.goto i (.popped rc)).thread i) < callRank (q.thread i) + 16
      omega
  | returned hpc => cases hinside
  | @wakeSpuriously i hpc =>
    exact ⟨by simp [Event.actor, hpc], fun hnot => absurd rfl (hnot i), by simp [Event.actor, payment, hself, hpc, callRank]⟩

end Monitor

/-! ### Steps of the program -/

section Steps

variable [Fintype ι] {plainRank : Process.Threads.State prog δ → Nat} (hinv : Inv s)
include hinv

/-- Inside a monitor only the call of the thread that moves changes its rank. -/
theorem sum_threadRank_inside {k : κ} {e : BlockingQueue.Event ι (α k)} {queue' : BlockingQueue.State ι (α k)}
    (hinside : e.isInside = true) (hstep : BlockingQueue.Step (s.queue k) e queue') :
    (∑ j, threadRank { s with queue := Function.update s.queue k queue' } j) +
        callRank ((s.queue k).thread e.actor) =
      (∑ j, threadRank s j) + callRank (queue'.thread e.actor) := by
  have hsum := sum_threadRank_monitor s.thread rfl hstep
    (fun i j heq => by rw [heq] at hinside; cases hinside) fun _ _ => rfl
  have hranks : threadRank s e.actor = callRank ((s.queue k).thread e.actor) ∧
      threadRank { s with queue := Function.update s.queue k queue' } e.actor = callRank (queue'.thread e.actor) := by
    rcases called_of_ne_idle (hinv.consistent k e.actor) (callRank_inside hinside hstep).1 with
      ⟨value, next, hinstr⟩ | ⟨next, hinstr⟩
    · exact ⟨threadRank_of_push hinstr, by simp [threadRank, hinstr]⟩
    · exact ⟨threadRank_of_pop hinstr, by simp [threadRank, hinstr]⟩
  rwa [hranks.1, hranks.2] at hsum

omit [Fintype ι] in
theorem plainRank_inside (hplain : ∀ s e s', Process.Threads.Step effect s e s' → plainRank s' < plainRank s)
    {k : κ} {e : BlockingQueue.Event ι (α k)} {queue' : BlockingQueue.State ι (α k)} (hlive : s.aborted = false)
    (hinside : e.isInside = true) (hstep : BlockingQueue.Step (s.queue k) e queue') :
    16 * plainRank (abs { s with queue := Function.update s.queue k queue' }) + payment e ≤ 16 * plainRank (abs s) := by
  have habs : AbstractStep (Process.Threads.Step effect) _ _ _ := abs_inside hinv hlive hinside hstep
  have hsilent : ∀ {plain : Process.Threads.State prog δ}, plain = abs s →
      16 * plainRank plain + 0 ≤ 16 * plainRank (abs s) := fun heq => by rw [heq]; exact Nat.le_refl _
  have hpaid : ∀ {plain : Process.Threads.State prog δ} {e}, Process.Threads.Step effect (abs s) e plain →
      16 * plainRank plain + 16 ≤ 16 * plainRank (abs s) := by
    intro plain e hplainStep
    have hlt := hplain _ _ _ hplainStep
    omega
  cases e with
  | pushFront i value => exact hpaid habs
  | popBack i rc => exact hpaid habs
  | callPush i value => cases hinside
  | callPop i => cases hinside
  | notifyOne i woken => cases hinside
  | returned i rc => cases hinside
  | lock i => exact hsilent habs
  | unlock i => exact hsilent habs
  | wait i => exact hsilent habs
  | wakeSpuriously i => exact hsilent habs

omit [DecidableEq κ] hinv in
/-- A thread that is in no call and moves on to another instruction. -/
theorem sum_threadRank_goto {i : ι} (next : prog.State i) (hidle : ∀ k, (s.queue k).thread i = .idle) :
    ∑ j, threadRank (s.goto i next) j = ∑ j, threadRank s j := by
  have hsum := sum_frame (f := threadRank s) (g := threadRank (s.goto i next)) (i := i)
    fun j hj => threadRank_congr (Function.update_of_ne hj _ _) fun k => rfl
  rw [threadRank_of_idle hidle, threadRank_of_idle (s := s.goto i next) hidle] at hsum
  omega

/-- A pusher that returns pays for the consumer it wakes. -/
theorem sum_threadRank_returnPush {i : ι} {k : κ} {value : α k} {next : prog.State i} {woken : Option ι}
    {queue' : BlockingQueue.State ι (α k)} (hinstr : prog.instr i (s.thread i) = .push k value next)
    (hstep : BlockingQueue.Step (s.queue k) (.notifyOne i woken) queue') :
    ∑ j, threadRank { s.goto i next with queue := Function.update s.queue k queue' } j < ∑ j, threadRank s j := by
  have hpc : (s.queue k).thread i = .notifying := by cases hstep <;> assumption
  have hbefore : threadRank s i = 14 := by rw [threadRank_of_push hinstr, hpc]; rfl
  have hafter : threadRank { s.goto i next with queue := Function.update s.queue k queue' } i = 10 :=
    threadRank_of_idle (idle_of_returnPush hinv.consistent hinstr hstep)
  cases woken with
  | none =>
    have hsum := sum_threadRank_monitor (i := i) (Function.update s.thread i next) rfl hstep (by simp)
      fun j hj => Function.update_of_ne hj _ _
    change _ + _ = _ + threadRank { s.goto i next with queue := Function.update s.queue k queue' } i at hsum
    rw [hbefore, hafter] at hsum
    change (∑ j, threadRank { s.goto i next with queue := Function.update s.queue k queue' } j) + _ = _ at hsum
    omega
  | some j =>
    have hwaiting : (s.queue k).thread j = .waiting := by cases hstep; assumption
    have hwoken : queue'.thread j = .woken := by cases hstep; exact Function.update_self _ _ _
    have hij : j ≠ i := fun heq => by simp [heq, hpc] at hwaiting
    obtain ⟨next', hpop⟩ : ∃ next, prog.instr j (s.thread j) = .pop k next := by
      have hcall := hinv.consistent k j
      rwa [hwaiting] at hcall
    have hbefore' : threadRank s j = 0 := by rw [threadRank_of_pop hpop, hwaiting]; rfl
    have hafter' : threadRank { s.goto i next with queue := Function.update s.queue k queue' } j = 3 := by
      simp [threadRank, State.goto, Function.update_of_ne hij, hpop, hwoken, callRank]
    -- First the pusher moves, then the consumer it wakes.
    have hfirst := sum_frame (f := threadRank s) (g := Function.update (threadRank s) i 10) (i := i)
      fun l hl => Function.update_of_ne hl _ _
    have hsecond := sum_frame (f := Function.update (threadRank s) i 10)
      (g := threadRank { s.goto i next with queue := Function.update s.queue k queue' }) (i := j) fun l hl => by
        by_cases hli : l = i
        · subst hli
          rw [hafter, Function.update_self]
        · rw [Function.update_of_ne hli]
          refine threadRank_congr (Function.update_of_ne hli _ _) fun k' => ?_
          by_cases hk : k' = k
          · subst hk
            simpa using thread_of_ne_actor hstep hli fun i' heq => by
              cases heq
              exact hl rfl
          · simp [Function.update_of_ne hk]
    rw [Function.update_self, hbefore] at hfirst
    rw [Function.update_of_ne hij, hbefore', hafter'] at hsecond
    omega

theorem sum_threadRank_returnPop {i : ι} {k : κ} {rc : α k} {next : α k → prog.State i}
    {queue' : BlockingQueue.State ι (α k)} (hinstr : prog.instr i (s.thread i) = .pop k next)
    (hstep : BlockingQueue.Step (s.queue k) (.returned i rc) queue') :
    ∑ j, threadRank { s.goto i (next rc) with queue := Function.update s.queue k queue' } j < ∑ j, threadRank s j := by
  have hpc : (s.queue k).thread i = .popped rc := by cases hstep; assumption
  have hsum := sum_threadRank_monitor (i := i) (Function.update s.thread i (next rc)) rfl hstep (by simp)
    fun j hj => Function.update_of_ne hj _ _
  have hbefore : threadRank s i = 11 := by rw [threadRank_of_pop hinstr, hpc]; rfl
  have hafter : threadRank { s.goto i (next rc) with queue := Function.update s.queue k queue' } i = 10 :=
    threadRank_of_idle (idle_of_returnPop hinv.consistent hinstr hstep)
  change (∑ j, threadRank { s.goto i (next rc) with queue := Function.update s.queue k queue' } j) + _ =
    _ + threadRank { s.goto i (next rc) with queue := Function.update s.queue k queue' } i at hsum
  omega

omit [Fintype ι] in
theorem abs_eq_of_silent {e : Event ι α ε} (hstep : Step effect s e s') (hlabel : label e = none) : abs s' = abs s := by
  have habs := (refines prog effect).abs_step _ _ _ hinv hstep
  rw [hlabel] at habs
  exact habs

omit [Fintype ι] in
theorem plainRank_lt (hplain : ∀ s e s', Process.Threads.Step effect s e s' → plainRank s' < plainRank s)
    {e : Event ι α ε} {plainEvent : Process.Threads.Event ι α ε} (hstep : Step effect s e s')
    (hlabel : label e = some plainEvent) : plainRank (abs s') < plainRank (abs s) := by
  have habs := (refines prog effect).abs_step _ _ _ hinv hstep
  rw [hlabel] at habs
  exact hplain _ _ _ habs

/-- If every step of the plain program costs, so does every step on the monitors that is not a
spurious wake-up. -/
theorem rank_lt (hplain : ∀ s e s', Process.Threads.Step effect s e s' → plainRank s' < plainRank s)
    {e : Event ι α ε} (hstep : Step effect s e s') (hspurious : e.isSpurious = false) :
    rank plainRank s' < rank plainRank s := by
  have hstep' := hstep
  simp only [rank]
  cases hstep with
  | @callPush i k value next queue' hlive hrunning hinstr hqueue =>
    have habs := congrArg plainRank (abs_eq_of_silent hinv hstep' rfl)
    have hsum := sum_threadRank_monitor (i := i) s.thread rfl hqueue (by simp) fun _ _ => rfl
    have hafter : threadRank { s with queue := Function.update s.queue k queue' } i = 9 := by
      cases hqueue
      simp [threadRank, hinstr, BlockingQueue.State.goto, callRank]
    have hbefore : threadRank s i = 10 := by
      cases hqueue with
      | callPush _ hpc => rw [threadRank_of_push hinstr, hpc]; rfl
    omega
  | @callPop i k next queue' hlive hrunning hinstr hqueue =>
    have habs := congrArg plainRank (abs_eq_of_silent hinv hstep' rfl)
    have hsum := sum_threadRank_monitor (i := i) s.thread rfl hqueue (by simp) fun _ _ => rfl
    have hafter : threadRank { s with queue := Function.update s.queue k queue' } i = 9 := by
      cases hqueue
      simp [threadRank, hinstr, BlockingQueue.State.goto, callRank]
    have hbefore : threadRank s i = 10 := by
      cases hqueue with
      | callPop hpc => rw [threadRank_of_pop hinstr, hpc]; rfl
    omega
  | @inside k e queue' hlive hinside hqueue =>
    have hpaid := plainRank_inside hinv hplain hlive hinside hqueue
    have hsum := sum_threadRank_inside hinv hinside hqueue
    have hcall := (callRank_inside hinside hqueue).2.1 fun i heq => by
      rw [heq] at hspurious
      cases hspurious
    omega
  | returnPush hlive hinstr hqueue =>
    have habs := congrArg plainRank (abs_eq_of_silent hinv hstep' rfl)
    have hsum := sum_threadRank_returnPush hinv hinstr hqueue
    omega
  | returnPop hlive hinstr hqueue =>
    have habs := congrArg plainRank (abs_eq_of_silent hinv hstep' rfl)
    have hsum := sum_threadRank_returnPop hinv hinstr hqueue
    omega
  | @act i e next hlive hrunning hinstr =>
    have habs := plainRank_lt hinv hplain hstep' rfl
    have hsum := sum_threadRank_goto next (idle_of_act hinv.consistent (i := i) (by simp [hinstr]) (by simp [hinstr]))
    have hsame : ∑ j, threadRank { s.goto i next with shared := effect e s.shared } j = ∑ j, threadRank (s.goto i next) j :=
      rfl
    omega
  | @spawn i j next hlive hrunning hinstr =>
    have habs := plainRank_lt hinv hplain hstep' rfl
    have hsum := sum_threadRank_goto next (idle_of_act hinv.consistent (i := i) (by simp [hinstr]) (by simp [hinstr]))
    have hsame : ∑ l, threadRank { s.goto i next with running := Function.update s.running j true } l =
        ∑ l, threadRank (s.goto i next) l := rfl
    omega
  | @join i j next hlive hrunning hinstr hstarted hreturned =>
    have habs := plainRank_lt hinv hplain hstep' rfl
    have hsum := sum_threadRank_goto next (idle_of_act hinv.consistent (i := i) (by simp [hinstr]) (by simp [hinstr]))
    omega
  | throw hlive hrunning hinstr =>
    have habs := plainRank_lt hinv hplain hstep' rfl
    have hsame : ∑ l, threadRank { s with aborted := true } l = ∑ l, threadRank s l := rfl
    omega

/-- A spurious wake-up gives no more than another look at the deque costs. -/
theorem rank_le_of_spurious {e : Event ι α ε} (hstep : Step effect s e s') (hspurious : e.isSpurious = true) :
    rank plainRank s' ≤ rank plainRank s + 3 := by
  have hstep' := hstep
  simp only [rank]
  cases hstep with
  | @inside k e queue' hlive hinside hqueue =>
    cases e with
    | wakeSpuriously i =>
      have habs := congrArg plainRank (abs_eq_of_silent hinv hstep' rfl)
      have hsum := sum_threadRank_inside hinv hinside hqueue
      have hcall := (callRank_inside hinside hqueue).2.2
      simp only [payment] at hcall
      omega
    | _ => cases hspurious
  | _ => cases hspurious

end Steps

end ParallelWatermark.BlockingQueue.Threads
