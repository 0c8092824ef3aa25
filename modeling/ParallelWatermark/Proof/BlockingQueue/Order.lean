import ParallelWatermark.BlockingQueue.Removal
import ParallelWatermark.Proof.BlockingQueue

/-!
# The order in which the blocking queue hands its elements on

Elements are pushed and removed inside critical sections only, and these exclude each other. So what
has been removed, in the order of the removals, is always the older part of what has been pushed, in
the order of the pushes, and the deque holds the rest.
-/

namespace ParallelWatermark.BlockingQueue

open Process

variable {ι α : Type}

/-! ### Histories -/

def Event.call? : Event ι α → Option (ι × α)
  | .callPush i value => some (i, value)
  | _ => none

def Event.push? : Event ι α → Option (ι × α)
  | .pushFront i value => some (i, value)
  | _ => none

def Event.removal? : Event ι α → Option (ι × α)
  | .popBack i rc => some (i, rc)
  | _ => none

def Event.return? : Event ι α → Option (ι × α)
  | .returned i rc => some (i, rc)
  | _ => none

section Histories

variable (evs : List (Event ι α)) (e : Event ι α)

/-- The calls of `push`, each with its thread. -/
def calls : List (ι × α) := evs.filterMap Event.call?

/-- The values pushed, each with the thread that pushed it, in the order of the critical sections. -/
def pushes : List (ι × α) := evs.filterMap Event.push?

/-- The values removed, each with the thread that popped it, in the order of the critical sections. -/
def removals : List (ι × α) := evs.filterMap Event.removal?

/-- The values returned, each with the thread that popped it. -/
def returns : List (ι × α) := evs.filterMap Event.return?

@[simp] theorem calls_concat : calls (evs ++ [e]) = calls evs ++ e.call?.toList := by
  cases hcall : e.call? <;> simp [calls, hcall]
@[simp] theorem pushes_concat : pushes (evs ++ [e]) = pushes evs ++ e.push?.toList := by
  cases hpush : e.push? <;> simp [pushes, hpush]
@[simp] theorem removals_concat : removals (evs ++ [e]) = removals evs ++ e.removal?.toList := by
  cases hremoval : e.removal? <;> simp [removals, hremoval]
@[simp] theorem returns_concat : returns (evs ++ [e]) = returns evs ++ e.return?.toList := by
  cases hreturn : e.return? <;> simp [returns, hreturn]

end Histories

variable [DecidableEq ι] {s s' : State ι α} {evs : List (Event ι α)}

/-! ### The deque holds what has been pushed and not yet removed -/

theorem items_step {e : Event ι α} (hstep : Step s e s') :
    e.removal?.toList.map Prod.snd ++ s'.deque.items = s.deque.items ++ e.push?.toList.map Prod.snd := by
  cases hstep with
  | pushFront hpc => simp [Event.removal?, Event.push?]
  | popBack hpc hpop => simp [Event.removal?, Event.push?, Fifo.pop_eq_some_iff.mp hpop]
  | _ => simp [Event.removal?, Event.push?]

theorem removals_append_items (hrun : Run Step State.start evs s) :
    (removals evs).map Prod.snd ++ s.deque.items = (pushes evs).map Prod.snd := by
  refine hrun.invariant (motive := fun evs s =>
    (removals evs).map Prod.snd ++ s.deque.items = (pushes evs).map Prod.snd) (by rfl) ?_
  intro evs s e s' _ hinv hstep
  rw [removals_concat, pushes_concat, List.map_append, List.map_append, List.append_assoc,
    items_step hstep, ← List.append_assoc, hinv]

/-! ### What has been removed and not yet returned -/

def Pc.result? : Pc α → Option α
  | .popped rc => some rc
  | _ => none

/-- The value that the owner of the mutex has removed and is about to return. -/
def State.inHand (s : State ι α) : List (ι × α) :=
  s.owner.toList.flatMap fun i => ((s.thread i).result?.map fun rc => (i, rc)).toList

theorem result?_locked {pc pc' : Pc α} (hlocked : pc.locked = some pc') : pc'.result? = none := by
  cases pc <;> cases hlocked <;> rfl

theorem result?_of_tests {pc : Pc α} (htests : pc.tests = true) : pc.result? = none := by
  cases pc <;> simp_all [Pc.tests, Pc.result?]

theorem inHand_of_goto {i : ι} {pc : Pc α} (hsame : pc.result? = (s.thread i).result?)
    (howner : s'.owner = s.owner)
    (hthread : s'.thread = (s.goto i pc).thread) : s'.inHand = s.inHand := by
  simp only [State.inHand, howner, map_thread_of_goto Pc.result? hsame hthread]

omit [DecidableEq ι] in
theorem inHand_of_owner {i : ι} (howner : s.owner = some i) :
    s.inHand = ((s.thread i).result?.map fun rc => (i, rc)).toList := by
  simp [State.inHand, howner]

omit [DecidableEq ι] in
theorem inHand_of_free (howner : s.owner = none) : s.inHand = [] := by
  simp [State.inHand, howner]

omit [DecidableEq ι] in
theorem inHand_of_nothing {i : ι} (howner : s.owner = some i)
    (hresult : (s.thread i).result? = none) : s.inHand = [] := by
  simp [inHand_of_owner howner, hresult]

theorem inHand_step {e : Event ι α} (hinv : MutexHeld s) (hstep : Step s e s') :
    e.return?.toList ++ s'.inHand = s.inHand ++ e.removal?.toList := by
  have howner : ∀ {i}, (s.thread i).holdsMutex = true → s.owner = some i := fun hheld => (hinv _).mp hheld
  have hquiet : s'.inHand = s.inHand → [] ++ s'.inHand = s.inHand ++ [] := fun hsame => by simp [hsame]
  cases hstep with
  | callPush value hpc => exact hquiet (inHand_of_goto (by rw [hpc]; rfl) rfl rfl)
  | callPop hpc => exact hquiet (inHand_of_goto (by rw [hpc]; rfl) rfl rfl)
  | @lock i pc hfree hpc =>
    apply hquiet
    rw [inHand_of_free hfree]
    exact inHand_of_nothing rfl (by simpa [State.goto] using result?_locked hpc)
  | pushFront hpc => exact hquiet (inHand_of_goto (by rw [hpc]; rfl) rfl rfl)
  | unlock hpc =>
    apply hquiet
    rw [inHand_of_nothing (howner (by rw [hpc]; rfl)) (by rw [hpc]; rfl)]
    exact inHand_of_free rfl
  | @notifyOne i j hpc hwaiting =>
    have hfirst : (s.goto i .idle).inHand = s.inHand := inHand_of_goto (by rw [hpc]; rfl) rfl rfl
    have hsecond : ((s.goto i .idle).goto j .woken).inHand = (s.goto i .idle).inHand :=
      inHand_of_goto (by rw [waiting_of_notify hpc hwaiting]; rfl) rfl rfl
    exact hquiet (hsecond.trans hfirst)
  | notifyNone hpc hnone => exact hquiet (inHand_of_goto (by rw [hpc]; rfl) rfl rfl)
  | wait hpc hempty =>
    apply hquiet
    rw [inHand_of_nothing (howner (holdsMutex_of_tests hpc)) (result?_of_tests hpc)]
    exact inHand_of_free rfl
  | @popBack i rc deque' hpc hpop =>
    have hheld := howner (holdsMutex_of_tests hpc)
    have hafter : ({ s.goto i (.popped rc) with deque := deque' } : State ι α).inHand = [(i, rc)] := by
      simp [State.inHand, State.goto, hheld, Pc.result?]
    rw [inHand_of_nothing hheld (result?_of_tests hpc), hafter]
    rfl
  | @returned i rc hpc =>
    rw [inHand_of_owner (howner (by rw [hpc]; rfl)), hpc, inHand_of_free rfl]
    simp [Pc.result?, Event.return?, Event.removal?]
  | wakeSpuriously hpc => exact hquiet (inHand_of_goto (by rw [hpc]; rfl) rfl rfl)

theorem removals_eq (hrun : Run Step State.start evs s) : removals evs = returns evs ++ s.inHand := by
  refine hrun.invariant (motive := fun evs s => removals evs = returns evs ++ s.inHand) (by rfl) ?_
  intro evs s e s' hbefore hinv hstep
  rw [removals_concat, returns_concat, hinv, List.append_assoc, List.append_assoc,
    inHand_step (mutexHeld_of_run hbefore) hstep]

/-! ### Each producer pushes what it was called with, in order -/

/-- The value a thread has been called to push and has not pushed yet. -/
def Pc.pending? : Pc α → Option α
  | .pushEntry value => some value
  | .pushLocked value => some value
  | _ => none

theorem pending?_locked {pc pc' : Pc α} (hlocked : pc.locked = some pc') :
    pc'.pending? = pc.pending? := by
  cases pc <;> cases hlocked <;> rfl

theorem pending?_of_tests {pc : Pc α} (htests : pc.tests = true) : pc.pending? = none := by
  cases pc <;> simp_all [Pc.tests, Pc.pending?]

theorem pending_step {e : Event ι α} (hstep : Step s e s') (j : ι) :
    (s.thread j).pending?.toList ++ Farm.ofWorker j e.call?.toList =
      Farm.ofWorker j e.push?.toList ++ (s'.thread j).pending?.toList := by
  have hquiet : (s'.thread j).pending? = (s.thread j).pending? →
      (s.thread j).pending?.toList ++ Farm.ofWorker j [] = Farm.ofWorker j [] ++ (s'.thread j).pending?.toList :=
    fun hsame => by simp [hsame, Farm.ofWorker]
  have hgoto : ∀ {s s' : State ι α} {i pc}, pc.pending? = (s.thread i).pending? →
      s'.thread = (s.goto i pc).thread → (s'.thread j).pending? = (s.thread j).pending? :=
    fun hsame hthread => map_thread_of_goto Pc.pending? hsame hthread j
  cases hstep with
  | @callPush i value hpc =>
    by_cases hi : i = j
    · subst hi
      simp [hpc, State.goto, Pc.pending?, Event.call?, Event.push?, Farm.ofWorker]
    · simp [State.goto, Function.update_of_ne (Ne.symm hi), Event.call?, Event.push?, Farm.ofWorker, hi]
  | callPop hpc => exact hquiet (hgoto (by rw [hpc]; rfl) rfl)
  | lock hfree hpc => exact hquiet (hgoto (pending?_locked hpc) rfl)
  | @pushFront i value hpc =>
    by_cases hi : i = j
    · subst hi
      simp [hpc, State.goto, Pc.pending?, Event.call?, Event.push?, Farm.ofWorker]
    · simp [State.goto, Function.update_of_ne (Ne.symm hi), Event.call?, Event.push?, Farm.ofWorker, hi]
  | unlock hpc => exact hquiet (hgoto (by rw [hpc]; rfl) rfl)
  | @notifyOne i k hpc hwaiting =>
    have hfirst : ((s.goto i .idle).thread j).pending? = (s.thread j).pending? := hgoto (by rw [hpc]; rfl) rfl
    exact hquiet ((hgoto (by rw [waiting_of_notify hpc hwaiting]; rfl) rfl).trans hfirst)
  | notifyNone hpc hnone => exact hquiet (hgoto (by rw [hpc]; rfl) rfl)
  | wait hpc hempty => exact hquiet (hgoto (by rw [pending?_of_tests hpc]; rfl) rfl)
  | popBack hpc hpop => exact hquiet (hgoto (by rw [pending?_of_tests hpc]; rfl) rfl)
  | returned hpc => exact hquiet (hgoto (by rw [hpc]; rfl) rfl)
  | wakeSpuriously hpc => exact hquiet (hgoto (by rw [hpc]; rfl) rfl)

/-- The calls of a producer are what it has pushed, in order, followed by the call it is in. -/
theorem calls_eq (hrun : Run Step State.start evs s) (j : ι) :
    Farm.ofWorker j (calls evs) = Farm.ofWorker j (pushes evs) ++ (s.thread j).pending?.toList := by
  refine hrun.invariant (motive := fun evs s => Farm.ofWorker j (calls evs) =
    Farm.ofWorker j (pushes evs) ++ (s.thread j).pending?.toList) (by rfl) ?_
  intro evs s e s' _ hinv hstep
  rw [calls_concat, pushes_concat, Farm.ofWorker_append, Farm.ofWorker_append, hinv, List.append_assoc,
    pending_step hstep j, List.append_assoc]

/-! ### A removal is never undefined -/

/-- While a consumer tests, nobody else touches the deque. -/
theorem unmoved_of_tests {e : Event ι α} {i : ι} (hinv : MutexHeld s) (hstep : Step s e s')
    (htests : (s.thread i).tests = true) (hactor : i ≠ e.actor) :
    s'.thread i = s.thread i ∧ s'.deque = s.deque := by
  have hheld := holdsMutex_of_tests htests
  cases hstep with
  | @pushFront j value hpc =>
    have hj : (s.thread j).holdsMutex = true := by rw [hpc]; rfl
    exact absurd (eq_of_holdsMutex hinv hheld hj) hactor
  | popBack hpc hpop => exact absurd (eq_of_holdsMutex hinv hheld (holdsMutex_of_tests hpc)) hactor
  | @notifyOne j k hpc hwaiting =>
    have hk : i ≠ k := by
      rintro rfl
      simp [hwaiting, Pc.tests] at htests
    have hj : i ≠ j := hactor
    exact ⟨by simp [State.goto, Function.update_of_ne hk, Function.update_of_ne hj], rfl⟩
  | _ => exact ⟨Function.update_of_ne hactor _ _, rfl⟩

/-- A detailed run seen from the monitor. A thread in the middle of a removal is still testing, and
the deque still has the element that it saw. -/
structure Refines (evs : List (DetailedEvent ι α)) (s : DetailedState ι α) : Prop where
  run : Run Step State.start (monitorEvents evs) s.monitor
  tests : ∀ i, s.removal i ≠ .untested → (s.monitor.thread i).tests = true
  nonempty : ∀ i, s.removal i ≠ .untested → s.monitor.deque.back.isSome = true
  read : ∀ i rc, s.removal i = .read rc → s.monitor.deque.back = some rc
  defined : ∀ i, .undefined i ∉ evs

section Refines

variable {evs : List (DetailedEvent ι α)} {s : DetailedState ι α}

theorem Refines.test {e : DetailedEvent ι α} {i : ι} {removal : Removal α} (hinv : Refines evs s)
    (hsilent : e.monitorEvent? = none)
    (hdefined : ∀ j, e ≠ .undefined j) (htests : (s.monitor.thread i).tests = true)
    (hne : s.monitor.deque.back.isSome = true)
    (hread : ∀ rc, removal = .read rc → s.monitor.deque.back = some rc) :
    Refines (evs ++ [e]) { s with removal := Function.update s.removal i removal } := by
  refine ⟨?_, ?_, fun j hj => hne, ?_, ?_⟩
  · simpa [monitorEvents, hsilent] using hinv.run
  · intro j hj
    by_cases hij : j = i
    · exact hij ▸ htests
    · exact hinv.tests j (by simpa [Function.update_of_ne hij] using hj)
  · intro j rc hj
    by_cases hij : j = i
    · subst hij
      exact hread rc (by simpa using hj)
    · exact hinv.read j rc (by simpa [Function.update_of_ne hij] using hj)
  · intro j
    simpa using ⟨hinv.defined j, Ne.symm (hdefined j)⟩

/-- The element removed is the one that was read, and nobody else was about to remove it. -/
theorem Refines.popBack {i : ι} {rc : α} (hinv : Refines evs s) (hread : s.removal i = .read rc) :
    Refines (evs ++ [.popBack i rc])
      ⟨{ s.monitor.goto i (.popped rc) with deque := s.monitor.deque.popBack },
        Function.update s.removal i .untested⟩ := by
  have htests : (s.monitor.thread i).tests = true := hinv.tests i (by rw [hread]; simp)
  have hpop : s.monitor.deque.pop = some (rc, s.monitor.deque.popBack) := by
    rw [Fifo.pop_eq_back, hinv.read i rc hread]
    rfl
  have hnobody : ∀ j, Function.update s.removal i .untested j = .untested := by
    intro j
    by_cases hij : j = i
    · simp [hij]
    · rw [Function.update_of_ne hij]
      by_contra hj
      exact hij (eq_of_holdsMutex (mutexHeld_of_run hinv.run) (holdsMutex_of_tests (hinv.tests j hj))
        (holdsMutex_of_tests htests))
  refine ⟨?_, fun j hj => absurd (hnobody j) hj, fun j hj => absurd (hnobody j) hj, ?_, ?_⟩
  · simpa [monitorEvents, DetailedEvent.monitorEvent?] using hinv.run.snoc (.popBack htests hpop)
  · intro j rc' hj
    cases (hnobody j).symm.trans hj
  · intro j
    simpa using hinv.defined j

theorem refines_of_run (hrun : Run DetailedStep DetailedState.start evs s) : Refines evs s := by
  refine hrun.invariant (motive := Refines) ⟨.nil, by simp [DetailedState.start], by simp [DetailedState.start],
    by simp [DetailedState.start], by simp⟩ ?_
  intro evs s e s' _ hinv hstep
  have hmutex := mutexHeld_of_run hinv.run
  cases hstep with
  | @monitor e monitor' hstep hremoves hactor =>
    have hunmoved : ∀ i, s.removal i ≠ .untested →
        monitor'.thread i = s.monitor.thread i ∧ monitor'.deque = s.monitor.deque := by
      intro i hi
      apply unmoved_of_tests hmutex hstep (hinv.tests i hi)
      rintro rfl
      exact hi hactor
    refine ⟨?_, ?_, ?_, ?_, ?_⟩
    · simpa [monitorEvents, DetailedEvent.monitorEvent?] using hinv.run.snoc hstep
    · intro i hi
      rw [(hunmoved i hi).1]
      exact hinv.tests i hi
    · intro i hi
      rw [(hunmoved i hi).2]
      exact hinv.nonempty i hi
    · intro i rc hread
      rw [(hunmoved i (by rw [hread]; simp)).2]
      exact hinv.read i rc hread
    · intro i
      simpa using hinv.defined i
  | pass hpc huntested hne => exact hinv.test rfl (by simp) hpc hne (by simp)
  | @back j rc hpassed hback =>
    have hj : s.removal j ≠ .untested := by rw [hpassed]; simp
    exact hinv.test rfl (by simp) (hinv.tests j hj) (hinv.nonempty j hj) fun rc' hread => by cases hread; exact hback
  | popBack hread hne => exact hinv.popBack hread
  | @undefinedBack j hpassed hempty =>
    have hne := hinv.nonempty j (by rw [hpassed]; simp)
    rw [hempty] at hne
    cases hne
  | @undefinedPopBack j rc hread hempty =>
    have hne := hinv.nonempty j (by rw [hread]; simp)
    rw [hempty] at hne
    cases hne

end Refines

/-! ### The queue is first-in first-out -/

theorem ofWorker_eq_filter {origin : α → ι} {l : List (ι × α)} (horigin : ∀ p ∈ l, origin p.2 = p.1)
    (i : ι) :
    Farm.ofWorker i l = (l.map Prod.snd).filter fun value => origin value = i := by
  induction l with
  | nil => rfl
  | cons p l ih =>
    have hp := horigin p List.mem_cons_self
    have htail := ih fun q hq => horigin q (List.mem_cons_of_mem _ hq)
    by_cases hi : p.1 = i
    · simpa [Farm.ofWorker, hp, hi] using htail
    · simpa [Farm.ofWorker, hp, hi] using htail

/-- In every reachable state what has been removed, in the order of the critical sections, followed
by the deque from its back to its front, is what has been pushed, in the order of the critical
sections; all of what has been removed has been returned, but for what the owner of the mutex may
have in hand. Neither `back` nor `pop_back` is ever called on an empty deque. A producer pushes what
it is called with, in order, and its values are received in that order. -/
theorem linearizable {evs : List (DetailedEvent ι α)} {s : DetailedState ι α}
    (hrun : Run DetailedStep DetailedState.start evs s) :
    (removals (monitorEvents evs)).map Prod.snd ++ s.monitor.deque.items =
      (pushes (monitorEvents evs)).map Prod.snd ∧
    removals (monitorEvents evs) = returns (monitorEvents evs) ++ s.monitor.inHand ∧
    (∀ i, .undefined i ∉ evs) ∧
    (∀ i, Farm.ofWorker i (calls (monitorEvents evs)) =
      Farm.ofWorker i (pushes (monitorEvents evs)) ++ (s.monitor.thread i).pending?.toList) ∧
    ∀ origin : α → ι, (∀ call ∈ calls (monitorEvents evs), origin call.2 = call.1) →
      ∀ i, ((removals (monitorEvents evs)).map Prod.snd).filter (fun value => origin value = i) <+:
        Farm.ofWorker i (calls (monitorEvents evs)) := by
  have hinv := refines_of_run hrun
  have hcalls := calls_eq hinv.run
  have hitems := removals_append_items hinv.run
  refine ⟨hitems, removals_eq hinv.run, hinv.defined, hcalls, ?_⟩
  intro origin horigin i
  have hpushed : ∀ p ∈ pushes (monitorEvents evs), origin p.2 = p.1 := by
    intro p hp
    apply horigin p
    rw [← Farm.mem_ofWorker, hcalls p.1]
    exact List.mem_append_left _ (Farm.mem_ofWorker.mpr hp)
  rw [hcalls i, ofWorker_eq_filter hpushed i, ← hitems, List.filter_append, List.append_assoc]
  exact List.prefix_append _ _

/-- A consumer that finds the queue empty, is woken by a push, and is about to remove what it has
read. -/
theorem linearizable_inhabited :
    ∃ (evs : List (DetailedEvent (Fin 2) Nat)) (s : DetailedState (Fin 2) Nat),
      Run DetailedStep DetailedState.start evs s ∧ s.removal 0 = .read 7 ∧
      pushes (monitorEvents evs) = [(1, 7)] ∧ removals (monitorEvents evs) = [] ∧
      s.monitor.deque.items = [7] ∧ ∀ i, .undefined i ∉ evs := by
  have hstart : Run DetailedStep (DetailedState.start : DetailedState (Fin 2) Nat) [] DetailedState.start := .nil
  have hcalled := hstart.snoc (.monitor (.callPop (i := 0) rfl) rfl rfl)
  have hlocked := hcalled.snoc (.monitor (.lock (i := 0) rfl rfl) rfl rfl)
  have hwaits := hlocked.snoc (.monitor (.wait (i := 0) rfl rfl) rfl rfl)
  have hpushes := hwaits.snoc (.monitor (.callPush (i := 1) 7 rfl) rfl rfl)
  have hlocked' := hpushes.snoc (.monitor (.lock (i := 1) rfl rfl) rfl rfl)
  have hpushed := hlocked'.snoc (.monitor (.pushFront (i := 1) rfl) rfl rfl)
  have hunlocked := hpushed.snoc (.monitor (.unlock (i := 1) rfl) rfl rfl)
  have hnotified := hunlocked.snoc (.monitor (.notifyOne (i := 1) (j := 0) rfl rfl) rfl rfl)
  have hrelocked := hnotified.snoc (.monitor (.lock (i := 0) rfl rfl) rfl rfl)
  have hpassed := hrelocked.snoc (.pass (i := 0) rfl rfl rfl)
  have hread := hpassed.snoc (.back (i := 0) rfl rfl)
  exact ⟨_, _, hread, rfl, rfl, rfl, rfl, (linearizable hread).2.2.1⟩

end ParallelWatermark.BlockingQueue
