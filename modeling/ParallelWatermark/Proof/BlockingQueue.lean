import ParallelWatermark.BlockingQueue
import ParallelWatermark.Process.Farm

/-!
# No wake-up of the blocking queue is lost

The notification comes after the mutex has been released, so others may push, steal the element or
wake up in between. What holds throughout is a count: as long as anyone waits, every element of the
deque is covered by a notification still to come or by a woken consumer that has yet to look.
-/

namespace ParallelWatermark.BlockingQueue

open Process

variable {ι α : Type} [DecidableEq ι]

/-! ### Mutual exclusion -/

/-- A thread is in a critical section exactly if it owns the mutex. -/
def MutexHeld (s : State ι α) : Prop := ∀ i, (s.thread i).holdsMutex = true ↔ s.owner = some i

section Mutex

variable {s s' : State ι α} {i : ι} {pc : Pc α}

/-- What does not change for the thread that moves changes for no thread. -/
theorem map_thread_of_goto {γ : Type} (f : Pc α → γ) (hsame : f pc = f (s.thread i))
    (hthread : s'.thread = (s.goto i pc).thread) (j : ι) : f (s'.thread j) = f (s.thread j) := by
  rw [hthread]
  by_cases hij : j = i
  · subst hij
    simpa [State.goto] using hsame
  · simp [State.goto, Function.update_of_ne hij]

/-- A notifier moves without moving the thread it is about to wake. -/
theorem waiting_of_notify {j : ι} (hpc : s.thread i = .notifying) (hwaiting : s.thread j = .waiting) :
    (s.goto i .idle).thread j = .waiting := by
  have hne : j ≠ i := fun heq => by simp [heq, hpc] at hwaiting
  simpa [State.goto, Function.update_of_ne hne] using hwaiting

theorem mutexHeld_of_goto (hinv : MutexHeld s) (hsame : pc.holdsMutex = (s.thread i).holdsMutex)
    (howner : s'.owner = s.owner) (hthread : s'.thread = (s.goto i pc).thread) : MutexHeld s' := by
  intro j
  rw [howner, map_thread_of_goto Pc.holdsMutex hsame hthread, hinv j]

theorem mutexHeld_of_release (hinv : MutexHeld s) (hheld : (s.thread i).holdsMutex = true)
    (hpc : pc.holdsMutex = false)
    (howner : s'.owner = none) (hthread : s'.thread = (s.goto i pc).thread) : MutexHeld s' := by
  intro j
  rw [howner, hthread]
  by_cases hij : j = i
  · subst hij
    simp [State.goto, hpc]
  · have hother : (s.thread j).holdsMutex = true ↔ s.owner = some j := hinv j
    rw [(hinv i).mp hheld] at hother
    simpa [State.goto, Function.update_of_ne hij, Ne.symm hij] using hother

theorem mutexHeld_of_lock (hinv : MutexHeld s) (hfree : s.owner = none) (hpc : pc.holdsMutex = true)
    (howner : s'.owner = some i) (hthread : s'.thread = (s.goto i pc).thread) : MutexHeld s' := by
  intro j
  rw [howner, hthread]
  by_cases hij : j = i
  · subst hij
    simp [State.goto, hpc]
  · have hother : (s.thread j).holdsMutex = true ↔ s.owner = some j := hinv j
    rw [hfree] at hother
    simpa [State.goto, Function.update_of_ne hij, Ne.symm hij] using hother

theorem holdsMutex_of_tests (htests : pc.tests = true) : pc.holdsMutex = true := by
  cases pc <;> simp_all [Pc.tests, Pc.holdsMutex]

theorem holdsMutex_locked {pc' : Pc α} (hlocked : pc.locked = some pc') :
    pc'.holdsMutex = true := by
  cases pc <;> cases hlocked <;> rfl

theorem mutexHeld_step {e : Event ι α} (hinv : MutexHeld s) (hstep : Step s e s') :
    MutexHeld s' := by
  cases hstep with
  | callPush value hpc => exact mutexHeld_of_goto hinv (by rw [hpc]; rfl) rfl rfl
  | callPop hpc => exact mutexHeld_of_goto hinv (by rw [hpc]; rfl) rfl rfl
  | lock hfree hpc => exact mutexHeld_of_lock hinv hfree (holdsMutex_locked hpc) rfl rfl
  | pushFront hpc => exact mutexHeld_of_goto hinv (by rw [hpc]; rfl) rfl rfl
  | unlock hpc => exact mutexHeld_of_release hinv (by rw [hpc]; rfl) rfl rfl rfl
  | @notifyOne i j hpc hwaiting =>
    have hfirst : MutexHeld (s.goto i .idle) := mutexHeld_of_goto hinv (by rw [hpc]; rfl) rfl rfl
    exact mutexHeld_of_goto hfirst (by rw [waiting_of_notify hpc hwaiting]; rfl) rfl rfl
  | notifyNone hpc hnone => exact mutexHeld_of_goto hinv (by rw [hpc]; rfl) rfl rfl
  | wait hpc hempty => exact mutexHeld_of_release hinv (holdsMutex_of_tests hpc) rfl rfl rfl
  | popBack hpc hpop => exact mutexHeld_of_goto hinv (by rw [holdsMutex_of_tests hpc]; rfl) rfl rfl
  | returned hpc => exact mutexHeld_of_release hinv (by rw [hpc]; rfl) rfl rfl rfl
  | wakeSpuriously hpc => exact mutexHeld_of_goto hinv (by rw [hpc]; rfl) rfl rfl

theorem mutexHeld_of_run {evs : List (Event ι α)} (hrun : Run Step State.start evs s) : MutexHeld s := by
  refine hrun.invariant (motive := fun _ s => MutexHeld s) ?_ fun _ _ _ _ _ hinv hstep => mutexHeld_step hinv hstep
  exact fun k => by simp [State.start, Pc.holdsMutex]

omit [DecidableEq ι] in
theorem eq_of_holdsMutex {j : ι} (hinv : MutexHeld s) (hi : (s.thread i).holdsMutex = true)
    (hj : (s.thread j).holdsMutex = true) : i = j := by
  have howner := (hinv i).mp hi
  rw [(hinv j).mp hj] at howner
  exact (Option.some_inj.mp howner).symm

/-- The critical sections exclude each other. -/
theorem mutual_exclusion {evs : List (Event ι α)} (hrun : Run Step State.start evs s) {j : ι}
    (hi : (s.thread i).holdsMutex = true) (hj : (s.thread j).holdsMutex = true) : i = j :=
  eq_of_holdsMutex (mutexHeld_of_run hrun) hi hj

end Mutex

/-! ### Wake-ups -/

section Counts

/-- What a thread at this position covers: an element by the notification it owes, or by the look it
has yet to take. -/
def Pc.cover : Pc α → Nat
  | .pushed => 1
  | .notifying => 1
  | .woken => 1
  | .retesting => 1
  | _ => 0

theorem Pc.cover_eq (pc : Pc α) :
    pc.cover = (if pc.owesNotification then 1 else 0) + if pc.isWoken then 1 else 0 := by
  cases pc <;> rfl

variable [Fintype ι]

theorem count_update (p : Pc α → Bool) (thread : ι → Pc α) (i : ι) (pc : Pc α) :
    (Finset.univ.filter fun j => p (Function.update thread i pc j)).card + (if p (thread i) then 1 else 0) =
      (Finset.univ.filter fun j => p (thread j)).card + if p pc then 1 else 0 := by
  rw [Finset.card_filter, Finset.card_filter]
  exact Farm.sum_update thread (fun pc => if p pc then 1 else 0) i pc

theorem cover_goto (s : State ι α) (i : ι) (pc : Pc α) :
    (s.goto i pc).pendingNotifications + (s.goto i pc).wokenConsumers + (s.thread i).cover =
      s.pendingNotifications + s.wokenConsumers + pc.cover := by
  have hpending : (s.goto i pc).pendingNotifications + (if (s.thread i).owesNotification then 1 else 0) =
      s.pendingNotifications + if pc.owesNotification then 1 else 0 :=
        count_update Pc.owesNotification s.thread i pc
  have hwoken : (s.goto i pc).wokenConsumers + (if (s.thread i).isWoken then 1 else 0) =
      s.wokenConsumers + if pc.isWoken then 1 else 0 := count_update Pc.isWoken s.thread i pc
  rw [Pc.cover_eq, Pc.cover_eq]
  omega

end Counts

def State.SomeWaiting (s : State ι α) : Prop := ∃ i, s.thread i = .waiting

omit [DecidableEq ι] in
theorem someWaiting_congr {s s' : State ι α} (hthread : s.thread = s'.thread) :
    s.SomeWaiting ↔ s'.SomeWaiting := by
  rw [State.SomeWaiting, State.SomeWaiting, hthread]

theorem someWaiting_of_goto {s : State ι α} {i : ι} {pc : Pc α} (hpc : pc ≠ .waiting)
    (hwaiting : (s.goto i pc).SomeWaiting) : s.SomeWaiting := by
  obtain ⟨j, hj⟩ := hwaiting
  by_cases hij : j = i
  · subst hij
    exact absurd (by simpa [State.goto] using hj) hpc
  · exact ⟨j, by simpa [State.goto, Function.update_of_ne hij] using hj⟩

section Invariant

variable [Fintype ι]

/-- As long as somebody waits, there are no more elements than notifications to come and consumers
to look again. -/
def NoLostWakeUp (s : State ι α) : Prop :=
  s.SomeWaiting → s.deque.items.length ≤ s.pendingNotifications + s.wokenConsumers

/-- A move that does not begin a wait keeps the bound if it adds to the deque no more than to what
the thread covers. -/
theorem noLostWakeUp_of_goto {s s' : State ι α} {i : ι} {pc : Pc α} (hinv : NoLostWakeUp s)
    (hpc : pc ≠ .waiting) (hthread : s'.thread = (s.goto i pc).thread)
    (hcover : s'.deque.items.length + (s.thread i).cover ≤ s.deque.items.length + pc.cover) : NoLostWakeUp s' := by
  intro hwaiting
  have hbefore := hinv (someWaiting_of_goto hpc ((someWaiting_congr hthread).mp hwaiting))
  have hgoto := cover_goto s i pc
  have hpending : s'.pendingNotifications = (s.goto i pc).pendingNotifications := by
    rw [State.pendingNotifications, State.pendingNotifications, hthread]
  have hwoken : s'.wokenConsumers = (s.goto i pc).wokenConsumers := by
    rw [State.wokenConsumers, State.wokenConsumers, hthread]
  omega

theorem cover_locked {pc pc' : Pc α} (hlocked : pc.locked = some pc') :
    pc'.cover = pc.cover ∧ pc' ≠ .waiting := by
  cases pc with
  | pushEntry value => cases hlocked; exact ⟨rfl, by simp⟩
  | popEntry => cases hlocked; exact ⟨rfl, by simp⟩
  | woken => cases hlocked; exact ⟨rfl, by simp⟩
  | _ => cases hlocked

theorem cover_le_one (pc : Pc α) : pc.cover ≤ 1 := by
  cases pc <;> simp [Pc.cover]

theorem noLostWakeUp_step {s s' : State ι α} {e : Event ι α} (hinv : NoLostWakeUp s)
    (hstep : Step s e s') :
    NoLostWakeUp s' := by
  cases hstep with
  | callPush value hpc => exact noLostWakeUp_of_goto hinv (by simp) rfl (by rw [hpc]; exact Nat.le_refl _)
  | callPop hpc => exact noLostWakeUp_of_goto hinv (by simp) rfl (by rw [hpc]; exact Nat.le_refl _)
  | lock hfree hpc =>
    obtain ⟨hcover, hne⟩ := cover_locked hpc
    exact noLostWakeUp_of_goto hinv hne rfl (by rw [hcover]; exact Nat.le_refl _)
  | @pushFront i value hpc =>
    refine noLostWakeUp_of_goto hinv (by simp) rfl ?_
    rw [hpc, Fifo.items_push, List.length_append]
    exact Nat.le_refl _
  | unlock hpc => exact noLostWakeUp_of_goto hinv (by simp) rfl (by rw [hpc]; exact Nat.le_refl _)
  | @notifyOne i j hpc hwaiting =>
    -- The notification turns into a woken consumer.
    intro _
    have hbefore := hinv ⟨j, hwaiting⟩
    have hfirst := cover_goto s i .idle
    have hsecond := cover_goto (s.goto i .idle) j .woken
    rw [hpc] at hfirst
    rw [waiting_of_notify hpc hwaiting] at hsecond
    simp only [Pc.cover, State.goto_deque] at hfirst hsecond ⊢
    omega
  | notifyNone hpc hnone =>
    intro hwaiting
    obtain ⟨j, hj⟩ := someWaiting_of_goto (by simp) hwaiting
    exact absurd hj (hnone j)
  | wait hpc hempty =>
    -- A consumer begins to wait only when there is nothing to cover.
    intro _
    simp [hempty]
  | @popBack i rc deque' hpc hpop =>
    have hitems := Fifo.pop_eq_some_iff.mp hpop
    have hle := cover_le_one (s.thread i)
    refine noLostWakeUp_of_goto hinv (by simp) rfl ?_
    simp only [hitems, List.length_cons]
    omega
  | returned hpc => exact noLostWakeUp_of_goto hinv (by simp) rfl (by rw [hpc]; exact Nat.le_refl _)
  | wakeSpuriously hpc => exact noLostWakeUp_of_goto hinv (by simp) rfl (by rw [hpc]; exact Nat.le_succ _)

end Invariant

/-- In every reachable state, as long as some consumer waits, the deque holds no more elements than
there are notifications still to be issued and consumers woken but not yet looking again. So with
none of either, nobody waits on a deque that is not empty. -/
theorem no_lost_wakeup [Fintype ι] {evs : List (Event ι α)} {s : State ι α}
    (hrun : Run Step State.start evs s) :
    ((∃ i, s.thread i = .waiting) → s.deque.items.length ≤ s.pendingNotifications + s.wokenConsumers) ∧
    (s.pendingNotifications = 0 → s.wokenConsumers = 0 → (∃ i, s.thread i = .waiting) → s.deque.items = []) := by
  have hinv : NoLostWakeUp s := by
    refine hrun.invariant (motive := fun _ s => NoLostWakeUp s) ?_ fun _ _ _ _ _ hinv hstep => noLostWakeUp_step hinv hstep
    intro hwaiting
    obtain ⟨i, hi⟩ := hwaiting
    cases hi
  refine ⟨hinv, fun hpending hwoken hwaiting => ?_⟩
  have hbound := hinv hwaiting
  rw [hpending, hwoken] at hbound
  exact List.length_eq_zero_iff.mp (Nat.le_zero.mp hbound)

/-- A consumer that waits, and a producer that has pushed and not yet notified. -/
theorem no_lost_wakeup_inhabited :
    ∃ (evs : List (Event (Fin 2) Nat)) (s : State (Fin 2) Nat), Run Step State.start evs s ∧
      s.thread 0 = .waiting ∧
      s.deque.items = [7] ∧ 1 ≤ s.pendingNotifications + s.wokenConsumers := by
  have hstart : Run Step (State.start : State (Fin 2) Nat) [] State.start := .nil
  have hcalled := hstart.snoc (.callPop (i := 0) rfl)
  have hlocked := hcalled.snoc (.lock (i := 0) rfl rfl)
  have hwaits := hlocked.snoc (.wait (i := 0) rfl rfl)
  have hpushes := hwaits.snoc (.callPush (i := 1) 7 rfl)
  have hlocked' := hpushes.snoc (.lock (i := 1) rfl rfl)
  have hpushed := hlocked'.snoc (.pushFront (i := 1) rfl)
  exact ⟨_, _, hpushed, rfl, rfl, (no_lost_wakeup hpushed).1 ⟨0, rfl⟩⟩

end ParallelWatermark.BlockingQueue
