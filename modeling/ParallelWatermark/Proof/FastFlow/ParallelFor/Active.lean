import Mathlib.Algebra.Order.BigOperators.Group.Finset
import ParallelWatermark.Process.Calls
import ParallelWatermark.Process.Interleaving
import ParallelWatermark.Proof.FastFlow.ParallelFor.Svc

/-!
# Workers that a scheduler serves

The scheduler counts the tasks that are out and those in the table together, and a worker that has
not been sent `GO_OUT` has a task. So when the count is down to zero all calls have been made and all
workers have been sent `GO_OUT`; and as long as it is not, one of them has something to do.
-/

namespace ParallelWatermark.FastFlow.ParallelFor.Active

open Buffer Process

variable {ε δ : Type} {loop : Loop ε δ} {value : δ} {evs : List (Event ε)} {s s' : State ε δ} {e : Event ε}

/-! ### The invariant -/

def Msg.tasks : Msg → List ForallTask
  | .task t => [t]
  | .goOut => []

theorem tasks_goOuts (gone : Bool) : (goOuts gone).flatMap Msg.tasks = [] := by
  cases gone <;> rfl

def Pc.held : Pc ε → List ForallTask
  | .running task _ => [task]
  | _ => []

/-- What is on its way to a worker. -/
def State.pending (s : State ε δ) (w : Nat) : List Msg := s.input w ++ Farm.ofWorker w s.outbox

/-- The tasks that are out with a worker. -/
def State.outWith (s : State ε δ) (w : Nat) : Nat :=
  ((s.pending w).flatMap Msg.tasks).length + (s.pc w).held.length + (s.output w).length

/-- The messages on their way to a worker that has been sent `GO_OUT` or has not been. -/
def Stream (pc : Pc ε) (pending : List Msg) : Bool → Prop
  | false => Msg.goOut ∉ pending ∧ pc ≠ .out
  | true => (∃ tasks, pending = tasks ++ [.goOut] ∧ Msg.goOut ∉ tasks) ∧ pc ≠ .out ∨ pending = [] ∧ pc = .out

structure Inv (sched : Scheduler) (s : State ε δ) : Prop where
  table : TableInv sched s.serving.data
  stream : ∀ w, Stream (s.pc w) (s.pending w) (s.serving.eossent w)
  total : s.serving.totaltasks = (∑ w ∈ Finset.range sched.nw, s.outWith w) + (worksOf sched s.serving.data).length
  owed : ∀ w < sched.nw, s.serving.eossent w = false → 0 < s.outWith w
  closed : ∀ w, s.serving.eossent w = true → worksOf sched s.serving.data = []
  returned : s.serving.returned = true ↔ s.serving.totaltasks ≤ 0
  absent : ∀ w, sched.nw ≤ w → s.outWith w = 0

theorem sum_range_of_ne {f g : Nat → Nat} {n i : Nat} (hi : i < n) (hrest : ∀ j ≠ i, f j = g j) :
    (∑ j ∈ Finset.range n, f j) + g i = (∑ j ∈ Finset.range n, g j) + f i := by
  have hmem := Finset.mem_range.mpr hi
  have hsame : ∑ j ∈ (Finset.range n).erase i, f j = ∑ j ∈ (Finset.range n).erase i, g j :=
    Finset.sum_congr rfl fun j hj => hrest j (Finset.ne_of_mem_erase hj)
  have hf := Finset.add_sum_erase _ f hmem
  have hg := Finset.add_sum_erase _ g hmem
  omega

theorem Inv.lt_of_outWith {sched : Scheduler} (hinv : Inv sched s) {w : Nat} (hout : 0 < s.outWith w) : w < sched.nw := by
  by_contra hge
  have := hinv.absent w (by omega)
  omega

/-- A step of a worker, who passes its tasks on. -/
theorem Inv.move {sched : Scheduler} (hinv : Inv sched s) {w : Nat} (hserving : s'.serving = s.serving)
    (hself : Stream (s'.pc w) (s'.pending w) (s.serving.eossent w)) (hout : s'.outWith w = s.outWith w)
    (hrest : ∀ v ≠ w, s'.pc v = s.pc v ∧ s'.pending v = s.pending v ∧ s'.output v = s.output v) : Inv sched s' := by
  have houts : ∀ v, s'.outWith v = s.outWith v := by
    intro v
    by_cases hv : v = w
    · rw [hv, hout]
    · obtain ⟨hpc, hpending, houtput⟩ := hrest v hv
      rw [State.outWith, State.outWith, hpc, hpending, houtput]
  refine ⟨hserving ▸ hinv.table, fun v => ?_, ?_, fun v hv => ?_, fun v => ?_, ?_, fun v hv => ?_⟩
  · rw [hserving]
    by_cases hv : v = w
    · rw [hv]
      exact hself
    · obtain ⟨hpc, hpending, -⟩ := hrest v hv
      rw [hpc, hpending]
      exact hinv.stream v
  · simp only [hserving, houts]
    exact hinv.total
  · rw [hserving, houts]
    exact hinv.owed v hv
  · rw [hserving]
    exact hinv.closed v
  · rw [hserving]
    exact hinv.returned
  · rw [houts]
    exact hinv.absent v hv

theorem Stream.congr {pc pc' : Pc ε} {pending : List Msg} {gone : Bool} (hpc : pc ≠ .out) (hpc' : pc' ≠ .out)
    (hstream : Stream pc pending gone) : Stream pc' pending gone := by
  cases gone with
  | false => exact ⟨hstream.1, hpc'⟩
  | true =>
    rcases hstream with ⟨hmsgs, -⟩ | ⟨-, hout⟩
    · exact Or.inl ⟨hmsgs, hpc'⟩
    · exact absurd hout hpc

theorem Stream.after_pop {msg : Msg} {rest : List Msg} {gone : Bool} {pc : Pc ε} (body : ForallTask → List ε)
    (hpc : pc = .waiting) (hstream : Stream pc (msg :: rest) gone) : Stream (afterPop body msg) rest gone := by
  subst hpc
  cases gone with
  | false =>
    obtain ⟨hmsgs, -⟩ := hstream
    cases msg with
    | task task => exact ⟨fun h => hmsgs (List.mem_cons_of_mem _ h), by simp [afterPop]⟩
    | goOut => exact absurd List.mem_cons_self hmsgs
  | true =>
    rcases hstream with ⟨⟨tasks, heq, hmsgs⟩, -⟩ | ⟨heq, -⟩
    · cases tasks with
      | nil =>
        obtain ⟨rfl, rfl⟩ := List.cons.inj heq
        exact Or.inr ⟨rfl, rfl⟩
      | cons first tasks =>
        obtain ⟨rfl, rfl⟩ := List.cons.inj heq
        cases msg with
        | task task =>
          exact Or.inl ⟨⟨tasks, rfl, fun h => hmsgs (List.mem_cons_of_mem _ h)⟩, by simp [afterPop]⟩
        | goOut => exact absurd List.mem_cons_self hmsgs
    · cases heq

theorem held_afterPop (body : ForallTask → List ε) (msg : Msg) : (afterPop body msg).held = msg.tasks := by
  cases msg <;> rfl

theorem Inv.pop (hinv : Inv loop.sched s) {wid : Nat} {msg : Msg} {rest : List Msg} (hpc : s.pc wid = .waiting)
    (hin : s.input wid = msg :: rest) :
    Inv loop.sched { s with
      input := Function.update s.input wid rest, pc := Function.update s.pc wid (afterPop loop.body msg) } := by
  have hstream := hinv.stream wid
  have hpending : s.pending wid = msg :: (rest ++ Farm.ofWorker wid s.outbox) := by
    rw [State.pending, hin, List.cons_append]
  rw [hpending] at hstream
  refine hinv.move (w := wid) rfl ?_ ?_ fun v hv => ?_
  · simpa [State.pending] using hstream.after_pop loop.body hpc
  · have hnone : (Pc.waiting : Pc ε).held = [] := rfl
    simp only [State.outWith, State.pending, Function.update_self, hin, hpc, hnone, held_afterPop, List.cons_append,
      List.flatMap_cons, List.length_append, List.length_nil]
    omega
  · simp [State.pending, Function.update_of_ne hv]

theorem Inv.giveBack {sched : Scheduler} (hinv : Inv sched s) {wid : Nat} {task : ForallTask} {todo : List ε}
    (hpc : s.pc wid = .running task todo) :
    Inv sched { s with
      pc := Function.update s.pc wid .waiting, output := Function.update s.output wid (s.output wid ++ [task]) } := by
  have hstream := hinv.stream wid
  rw [hpc] at hstream
  refine hinv.move (w := wid) rfl ?_ ?_ fun v hv => ?_
  · simpa [State.pending] using hstream.congr (by simp) (by simp)
  · simp [State.outWith, State.pending, hpc, Pc.held]
    omega
  · simp [State.pending, Function.update_of_ne hv]

section Collect

variable {wid : Nat} {task : ForallTask} {rest : List ForallTask} (hbox : s.outbox = []) (hout : s.output wid = task :: rest)
  (sent : List Msg) (t : Serving)

/-- The state when `svc` has been called for a task that the worker has given back. -/
def State.serve (s : State ε δ) (wid : Nat) (rest : List ForallTask) (sent : List Msg) (t : Serving) : State ε δ :=
  { s with serving := t, outbox := sent.map (wid, ·), output := Function.update s.output wid rest }

include hbox

theorem pending_serve : (s.serve wid rest sent t).pending wid = s.pending wid ++ sent := by
  simp [State.pending, State.serve, hbox, Farm.ofWorker, List.filterMap_map]

theorem pending_serve_of_ne {v : Nat} (hv : v ≠ wid) : (s.serve wid rest sent t).pending v = s.pending v := by
  simp [State.pending, State.serve, hbox, Farm.ofWorker, List.filterMap_map, Ne.symm hv]

theorem outWith_serve_of_ne {v : Nat} (hv : v ≠ wid) : (s.serve wid rest sent t).outWith v = s.outWith v := by
  rw [State.outWith, pending_serve_of_ne hbox sent t hv]
  simp [State.outWith, State.serve, Function.update_of_ne hv]

include hout

theorem outWith_serve : (s.serve wid rest sent t).outWith wid + 1 = s.outWith wid + (sent.flatMap Msg.tasks).length := by
  rw [State.outWith, pending_serve hbox sent t]
  simp only [State.serve, Function.update_self, State.outWith, hout, List.flatMap_append, List.length_append, List.length_cons]
  omega

theorem Inv.serve {sched : Scheduler} (hinv : Inv sched s) (htable : TableInv sched t.data)
    (htotal : t.totaltasks + (worksOf sched s.serving.data).length + 1 =
      s.serving.totaltasks + (worksOf sched t.data).length + (sent.flatMap Msg.tasks).length)
    (hstream : Stream (s.pc wid) (s.pending wid ++ sent) (t.eossent wid))
    (hothers : ∀ v ≠ wid, t.eossent v = s.serving.eossent v) (howed : t.eossent wid = false → sent.flatMap Msg.tasks ≠ [])
    (hclosed : ∀ v, t.eossent v = true → worksOf sched t.data = []) (hback : t.returned = true ↔ t.totaltasks ≤ 0) :
    Inv sched (s.serve wid rest sent t) := by
  have hwid := hinv.lt_of_outWith (w := wid) (by simp [State.outWith, hout])
  have hself := outWith_serve hbox hout sent t
  have houts := fun v => @outWith_serve_of_ne ε δ s wid rest hbox sent t v
  have hsum := sum_range_of_ne hwid houts
  have hbefore := hinv.total
  refine ⟨htable, fun v => ?_, ?_, fun v hv hgone => ?_, hclosed, hback, fun v hv => ?_⟩
  · by_cases hv : v = wid
    · subst hv
      rw [pending_serve hbox]
      exact hstream
    · rw [pending_serve_of_ne hbox _ _ hv, show (s.serve wid rest sent t).serving.eossent v = s.serving.eossent v from
        hothers v hv]
      exact hinv.stream v
  · rw [show (s.serve wid rest sent t).serving = t from rfl]
    omega
  · by_cases hv' : v = wid
    · subst hv'
      have := List.length_pos_of_ne_nil (howed hgone)
      have hbusy : 0 < s.outWith v := by simp [State.outWith, hout]
      omega
    · rw [houts v hv']
      exact hinv.owed v hv ((hothers v hv').symm.trans hgone)
  · rw [houts v (by omega)]
    exact hinv.absent v hv

end Collect

theorem Inv.collect (hready : Ready loop.sched) (hinv : Inv loop.sched s) {wid : Nat} {task : ForallTask}
    {rest : List ForallTask} (hbox : s.outbox = []) (hreturned : s.serving.returned = false) (hout : s.output wid = task :: rest) :
    Inv loop.sched { s with
      serving := (svc loop.sched s.serving wid).2
      outbox := (svc loop.sched s.serving wid).1
      output := Function.update s.output wid rest } := by
  have hstream := hinv.stream wid
  have htotal := hinv.total
  rcases svc_cases hinv.table wid with ⟨id, maxid, hopen, hmore, hsvc⟩ | ⟨maxid, hnone, hsvc⟩
  · -- The worker is sent another task.
    obtain ⟨htable, hone, hgive⟩ := hinv.table.give hready hopen
    have hlength := hgive.length_eq
    rw [List.length_append, hone] at hlength
    have hlive : ∀ w, s.serving.eossent w ≠ true := by
      intro w hgone
      rw [hinv.closed w hgone, List.length_nil] at hlength
      omega
    rw [hsvc]
    refine hinv.serve hbox hout [.task (loop.sched.nextOf (s.serving.data id))] _ htable ?_ ?_ (fun _ _ => rfl) ?_ ?_ ?_
    · simp [Msg.tasks]
      omega
    · simp only [eq_false_of_ne_true (hlive wid)] at hstream ⊢
      exact ⟨by simpa using hstream.1, hstream.2⟩
    · simp [Msg.tasks]
    · exact fun v hgone => absurd hgone (hlive v)
    · simp [hreturned]
      omega
  · -- The worker is sent `GO_OUT`, if it has not been.
    have hbusy : 0 < s.outWith wid := by simp [State.outWith, hout]
    have hle : s.outWith wid ≤ ∑ w ∈ Finset.range loop.sched.nw, s.outWith w :=
      Finset.single_le_sum (fun _ _ => Nat.zero_le _) (Finset.mem_range.mpr (hinv.lt_of_outWith hbusy))
    have hworks : worksOf loop.sched s.serving.data = [] := by
      rcases hnone with hnone | hlast
      · exact hnone
      · exact List.eq_nil_of_length_eq_zero (by omega)
    rw [hsvc]
    refine hinv.serve hbox hout _ _ hinv.table ?_ ?_ (fun v hv => Function.update_of_ne hv _ _) ?_ ?_ ?_
    · simp [tasks_goOuts, hworks]
    · simp only [Function.update_self, goOuts]
      cases hgone : s.serving.eossent wid with
      | true => simpa [hgone] using hstream
      | false =>
        rw [hgone] at hstream
        exact Or.inl ⟨⟨s.pending wid, by simp, hstream.1⟩, hstream.2⟩
    · simp
    · exact fun _ _ => hworks
    · simp [hreturned]

theorem pending_send {wid : Nat} {msg : Msg} {rest : List (Nat × Msg)} (hbox : s.outbox = (wid, msg) :: rest) (v : Nat) :
    State.pending { s with outbox := rest, input := Function.update s.input wid (s.input wid ++ [msg]) } v = s.pending v := by
  by_cases hv : v = wid
  · subst hv
    simp [State.pending, hbox, Farm.ofWorker]
  · simp [State.pending, hbox, Farm.ofWorker, Function.update_of_ne hv, Ne.symm hv]

theorem Inv.step (hready : Ready loop.sched) (hinv : Inv loop.sched s) (hstep : Step loop s e s') : Inv loop.sched s' := by
  cases hstep with
  | @send wid msg rest hbox =>
    refine hinv.move (w := wid) rfl ?_ ?_ fun v hv => ⟨rfl, pending_send hbox v, rfl⟩
    · rw [pending_send hbox]
      exact hinv.stream wid
    · rw [State.outWith, pending_send hbox]
      rfl
  | collect hbox hreturned hout => exact hinv.collect hready hbox hreturned hout
  | pop hwid hpc hin => exact hinv.pop hpc hin
  | @act wid task a todo hpc =>
    have hstream := hinv.stream wid
    rw [hpc] at hstream
    refine hinv.move (w := wid) rfl ?_ ?_ fun v hv => ?_
    · simpa [State.pending] using hstream.congr (by simp) (by simp)
    · simp [State.outWith, State.pending, hpc, Pc.held]
    · simp [State.pending, Function.update_of_ne hv]
  | giveBack hpc => exact hinv.giveBack hpc

/-! ### The start -/

theorem sum_length_ofWorker {χ : Type} {n : Nat} {l : List (Nat × χ)} (hl : ∀ p ∈ l, p.1 < n) :
    ∑ w ∈ Finset.range n, (Farm.ofWorker w l).length = l.length := by
  induction l with
  | nil => simp [Farm.ofWorker]
  | cons p l ih =>
    have hone : ∀ w, (Farm.ofWorker w (p :: l)).length = (if p.1 = w then 1 else 0) + (Farm.ofWorker w l).length := by
      intro w
      by_cases hw : p.1 = w
      · simp [Farm.ofWorker, hw]
        omega
      · simp [Farm.ofWorker, hw]
    simp only [hone, Finset.sum_add_distrib, ih fun q hq => hl q (List.mem_cons_of_mem _ hq)]
    rw [Finset.sum_ite_eq, if_pos (Finset.mem_range.mpr (hl p List.mem_cons_self)), List.length_cons]
    omega

theorem pending_start (w : Nat) :
    (start loop value).pending w = (Farm.ofWorker w (loop.sched.sendTask false).sent).map .task := by
  simp only [State.pending, start, List.nil_append, Farm.ofWorker, List.filterMap_map, List.map_filterMap]
  congr 1
  funext p
  by_cases hw : p.1 = w <;> simp [hw]

theorem tasks_pending_start (w : Nat) :
    ((start loop value).pending w).flatMap Msg.tasks = Farm.ofWorker w (loop.sched.sendTask false).sent := by
  rw [pending_start, List.flatMap_map]
  exact List.flatMap_singleton' _

theorem outWith_start (w : Nat) :
    (start loop value).outWith w = (Farm.ofWorker w (loop.sched.sendTask false).sent).length := by
  rw [State.outWith, tasks_pending_start]
  rfl

theorem inv_start (hready : Ready loop.sched) (hdynamic : loop.sched.staticScheduling = false) (value : δ) :
    Inv loop.sched (start loop value) := by
  obtain ⟨⟨htable, hbound, -, hcount⟩, hfirst⟩ := sendTask_false hready hdynamic
  have htotal := hready.totaltasks_eq hdynamic
  have hsome : 0 < (Farm.ofWorker 0 (loop.sched.sendTask false).sent).length := by
    obtain ⟨task, hmem⟩ := hfirst 0 hready.nw_pos
    exact List.length_pos_of_mem (Farm.mem_ofWorker.mpr hmem)
  have hlength := sum_length_ofWorker hbound
  refine ⟨htable, fun w => ⟨?_, by simp [start]⟩, ?_, fun w hw _ => ?_, fun w hgone => ?_, ?_, fun w hw => ?_⟩
  · rw [pending_start]
    simp
  · simp only [outWith_start, hlength]
    simp only [start]
    omega
  · obtain ⟨task, hmem⟩ := hfirst w hw
    rw [outWith_start]
    exact List.length_pos_of_mem (Farm.mem_ofWorker.mpr hmem)
  · cases hgone
  · have hle : (Farm.ofWorker 0 (loop.sched.sendTask false).sent).length ≤ (loop.sched.sendTask false).sent.length :=
      List.length_filterMap_le _ _
    simp only [start, Bool.false_eq_true, false_iff]
    omega
  · rw [outWith_start, List.length_eq_zero_iff, List.eq_nil_iff_forall_not_mem]
    intro task hmem
    have := hbound _ (Farm.mem_ofWorker.mp hmem)
    simp only at this
    omega

theorem inv_of_history (hready : Ready loop.sched) (hdynamic : loop.sched.staticScheduling = false)
    (hrun : History loop value evs s) : Inv loop.sched s :=
  hrun.invariant (motive := fun _ s => Inv loop.sched s) (inv_start hready hdynamic value)
    fun _ _ _ _ _ hinv hstep => hinv.step hready hstep

/-! ### The calls -/

def Event.acts : Event ε → List (Nat × ε)
  | .act wid a => [(wid, a)]
  | _ => []

/-- What is left of a call. -/
def Pc.todo : Pc ε → List ε
  | .running _ todo => todo
  | _ => []

/-- The tasks on their way to the workers. -/
def State.coming (s : State ε δ) (nw : Nat) : List (Int × Int) :=
  (List.range nw).flatMap fun w => ((s.pending w).flatMap Msg.tasks).flatMap ForallTask.calls

theorem coming_congr {nw : Nat} (hpending : ∀ w, s'.pending w = s.pending w) : s'.coming nw = s.coming nw := by
  simp only [State.coming, hpending]

theorem coming_step {nw wid : Nat} {tasks : List ForallTask} (hwid : wid < nw)
    (hself : ((s.pending wid).flatMap Msg.tasks).Perm (tasks ++ (s'.pending wid).flatMap Msg.tasks))
    (hrest : ∀ v ≠ wid, s.pending v = s'.pending v) :
    (s.coming nw).Perm (tasks.flatMap ForallTask.calls ++ s'.coming nw) := by
  refine Passive.perm_flatMap_update hwid ?_ fun v hv => by rw [hrest v hv]
  rw [← List.flatMap_append]
  exact hself.flatMap_right _

theorem coming_serve {nw wid : Nat} (rest : List ForallTask) (hbox : s.outbox = []) (hwid : wid < nw) (sent : List Msg)
    (t : Serving) :
    ((s.serve wid rest sent t).coming nw).Perm ((sent.flatMap Msg.tasks).flatMap ForallTask.calls ++ s.coming nw) := by
  refine coming_step hwid ?_ fun v hv => pending_serve_of_ne hbox sent t hv
  rw [pending_serve hbox, List.flatMap_append]
  exact List.perm_append_comm

theorem works_step (hready : Ready loop.sched) (hinv : Inv loop.sched s) (hstep : Step loop s e s') :
    (s.coming loop.sched.nw ++ worksOf loop.sched s.serving.data).Perm
      (e.calls.flatMap (fun p => p.2.calls) ++ (s'.coming loop.sched.nw ++ worksOf loop.sched s'.serving.data)) := by
  cases hstep with
  | @send wid msg rest hbox =>
    rw [coming_congr (pending_send hbox)]
    exact List.Perm.refl _
  | @collect wid task rest hbox hreturned hout =>
    have hwid := hinv.lt_of_outWith (w := wid) (by simp [State.outWith, hout])
    rcases svc_cases hinv.table wid with ⟨id, maxid, hopen, hmore, hsvc⟩ | ⟨maxid, hnone, hsvc⟩
    · obtain ⟨-, -, hgive⟩ := hinv.table.give hready hopen
      rw [hsvc]
      have hcoming := coming_serve rest hbox hwid [.task (loop.sched.nextOf (s.serving.data id))]
      simp only [List.flatMap_singleton, Msg.tasks] at hcoming
      refine (hgive.append_left _).trans ((List.perm_append_comm_assoc _ _ _).trans ?_)
      rw [← List.append_assoc]
      exact (hcoming _).symm.append_right _
    · rw [hsvc]
      have hcoming := coming_serve rest hbox hwid (goOuts (s.serving.eossent wid))
      simp only [tasks_goOuts, List.flatMap_nil, List.nil_append] at hcoming
      exact (hcoming _).symm.append_right _
  | @pop wid msg rest hwid hpc hin =>
    have hcoming := @coming_step ε δ s { s with
      input := Function.update s.input wid rest, pc := Function.update s.pc wid (afterPop loop.body msg) }
      loop.sched.nw wid msg.tasks hwid (by simp [State.pending, hin]) (fun v hv => by simp [State.pending, Function.update_of_ne hv])
    have hcalls : (Event.pop wid msg : Event ε).calls.flatMap (fun p => p.2.calls) = msg.tasks.flatMap ForallTask.calls := by
      cases msg <;> rfl
    rw [hcalls, ← List.append_assoc]
    exact hcoming.append_right _
  | act hpc => exact List.Perm.refl _
  | giveBack hpc => exact List.Perm.refl _

/-- What is made of all entries, worker by worker. -/
theorem flatMap_ofWorker_perm {χ χ' : Type} (g : χ → List χ') {n : Nat} {l : List (Nat × χ)} (hl : ∀ p ∈ l, p.1 < n) :
    ((List.range n).flatMap fun w => (Farm.ofWorker w l).flatMap g).Perm (l.flatMap fun p => g p.2) := by
  induction l with
  | nil => simp [Farm.ofWorker]
  | cons p l ih =>
    have hperm := @Passive.perm_flatMap_update χ' (fun w => (Farm.ofWorker w (p :: l)).flatMap g)
      (fun w => (Farm.ofWorker w l).flatMap g) (g p.2) n p.1 (hl p List.mem_cons_self)
      (List.Perm.of_eq (by simp [Farm.ofWorker])) (fun w hw => by simp [Farm.ofWorker, Ne.symm hw])
    exact hperm.trans ((ih fun q hq => hl q (List.mem_cons_of_mem _ hq)).append_left _)

section History

variable (hready : Ready loop.sched) (hdynamic : loop.sched.staticScheduling = false) (hrun : History loop value evs s)
include hready hdynamic hrun

/-- The calls begun, the tasks on their way and those left in the table are the tasks of the loop. -/
theorem calls_perm : ((evs.flatMap Event.calls).flatMap (fun p => p.2.calls) ++
    (s.coming loop.sched.nw ++ worksOf loop.sched s.serving.data)).Perm loop.sched.works := by
  refine hrun.invariant (motive := fun evs (s : State ε δ) => ((evs.flatMap Event.calls).flatMap (fun p => p.2.calls) ++
    (s.coming loop.sched.nw ++ worksOf loop.sched s.serving.data)).Perm loop.sched.works) ?_ ?_
  · obtain ⟨⟨-, hbound, hperm, -⟩, -⟩ := sendTask_false hready hdynamic
    refine List.Perm.trans ?_ hperm
    simp only [List.flatMap_nil, List.nil_append]
    refine List.Perm.append_right _ ?_
    simp only [State.coming, tasks_pending_start]
    exact flatMap_ofWorker_perm ForallTask.calls hbound
  · intro evs s e s' hbefore hperm hstep
    have hworks := works_step hready (inv_of_history hready hdynamic hbefore) hstep
    refine List.Perm.trans ?_ hperm
    simp only [List.flatMap_append, List.flatMap_singleton, List.append_assoc]
    exact hworks.symm.append_left _

end History

/-! ### The actions -/

theorem todo_step (hstep : Step loop s e s') (w : Nat) :
    Farm.ofWorker w e.acts ++ (s'.pc w).todo = (s.pc w).todo ++ (Farm.ofWorker w e.calls).flatMap loop.body := by
  have hown := fun {v : Nat} {pc : Pc ε} => @Farm.ofWorker_step _ _ _ _ _ loop.body Pc.todo v s.pc pc
  cases hstep with
  | send hbox => simp [Event.acts, Event.calls, Farm.ofWorker]
  | collect hbox hreturned hout => simp [Event.acts, Event.calls, Farm.ofWorker]
  | @pop v msg rest hwid hpc hin =>
    cases msg with
    | task task => exact hown [] [task] (by simp [hpc, Pc.todo, afterPop]) w
    | goOut => exact hown [] [] (by simp [hpc, Pc.todo, afterPop]) w
  | @act v task a todo hpc => exact hown [a] [] (by simp [hpc, Pc.todo]) w
  | @giveBack v task hpc => exact hown [] [] (by simp [hpc, Pc.todo]) w

/-- The actions of a worker so far and those left of its call are the bodies of its calls. -/
theorem acts_append_todo (hrun : History loop value evs s) (w : Nat) :
    Farm.ofWorker w (evs.flatMap Event.acts) ++ (s.pc w).todo =
      (Farm.ofWorker w (evs.flatMap Event.calls)).flatMap loop.body :=
  hrun.acts_append_todo loop.body (fun s w => (s.pc w).todo) Event.acts Event.calls (fun _ _ _ hstep => todo_step hstep) w

theorem value_eq (hrun : History loop value evs s) :
    s.value = ((evs.flatMap Event.acts).map Prod.snd).foldl (fun v a => loop.effect a v) value :=
  hrun.value_eq State.value loop.effect Event.acts fun _ _ _ hstep => by cases hstep <;> rfl

/-! ### The return of the scheduler -/

theorem outWith_of_returned {sched : Scheduler} (hinv : Inv sched s) (hreturned : s.serving.returned = true) :
    (∀ w, s.outWith w = 0) ∧ worksOf sched s.serving.data = [] := by
  have hnone := hinv.returned.mp hreturned
  have htotal := hinv.total
  have hsum : ∑ w ∈ Finset.range sched.nw, s.outWith w = 0 := by omega
  refine ⟨fun w => ?_, List.eq_nil_of_length_eq_zero (by omega)⟩
  by_cases hw : w < sched.nw
  · exact Finset.sum_eq_zero_iff.mp hsum w (Finset.mem_range.mpr hw)
  · exact hinv.absent w (by omega)

/-- When the scheduler returns the calls of the loop have been made and their actions performed. -/
theorem complete (hready : Ready loop.sched) (hdynamic : loop.sched.staticScheduling = false)
    (hrun : History loop value evs s) (hreturned : s.serving.returned = true) :
    ((evs.flatMap Event.calls).flatMap fun p => p.2.calls).Perm loop.sched.works ∧
      ((evs.flatMap Event.acts).map Prod.snd).Perm ((evs.flatMap Event.calls).flatMap fun p => loop.body p.2) := by
  obtain ⟨houts, hworks⟩ := outWith_of_returned (inv_of_history hready hdynamic hrun) hreturned
  have hparts : ∀ w, (s.pending w).flatMap Msg.tasks = [] ∧ (s.pc w).held = [] := by
    intro w
    have hout := houts w
    simp only [State.outWith, Nat.add_eq_zero_iff, List.length_eq_zero_iff] at hout
    exact hout.1
  constructor
  · have hcalls := calls_perm hready hdynamic hrun
    have hcoming : s.coming loop.sched.nw = [] :=
      List.flatMap_eq_nil_iff.mpr fun w _ => by rw [(hparts w).1, List.flatMap_nil]
    simpa [hcoming, hworks] using hcalls
  · have hperm : (evs.flatMap Event.acts).Perm
        ((evs.flatMap Event.calls).flatMap fun p => (loop.body p.2).map fun a => (p.1, a)) := by
      refine Farm.perm_of_ofWorker_eq fun w => ?_
      have hacts := acts_append_todo hrun w
      have htodo : (s.pc w).todo = [] := by
        have hheld := (hparts w).2
        cases hpc : s.pc w with
        | running task todo => simp [hpc, Pc.held] at hheld
        | waiting => rfl
        | out => rfl
      rw [htodo, List.append_nil] at hacts
      rw [Interleaving.ofWorker_flatMap, ← hacts]
    refine (hperm.map Prod.snd).trans (List.Perm.of_eq ?_)
    simp [List.map_flatMap, Function.comp_def]

/-! ### The end -/

/-- Where nothing can happen any more the scheduler has returned, all workers are out and nothing is left in their
queues. -/
theorem quiet_of_terminal (hready : Ready loop.sched) (hinv : Inv loop.sched s) (hterminal : Terminal (Step loop) s) :
    s.serving.returned = true ∧ s.outbox = [] ∧
      ∀ w < loop.sched.nw, s.pc w = .out ∧ s.input w = [] ∧ s.output w = [] := by
  have hbox : s.outbox = [] := by
    cases hbox : s.outbox with
    | nil => rfl
    | cons entry rest => exact absurd (.send hbox) (hterminal _ _)
  have hpending : ∀ w, s.pending w = s.input w := fun w => by simp [State.pending, hbox, Farm.ofWorker]
  have hidle : ∀ w, (s.pc w).held = [] := by
    intro w
    cases hpc : s.pc w with
    | running task todo =>
      cases todo with
      | nil => exact absurd (.giveBack hpc) (hterminal _ _)
      | cons a todo => exact absurd (.act hpc) (hterminal _ _)
    | waiting => rfl
    | out => rfl
  have hinput : ∀ w < loop.sched.nw, s.input w = [] := by
    intro w hw
    have hstream := hinv.stream w
    have hheld := hidle w
    rw [hpending] at hstream
    cases hpc : s.pc w with
    | waiting =>
      cases hin : s.input w with
      | nil => rfl
      | cons msg rest => exact absurd (.pop hw hpc hin) (hterminal _ _)
    | running task todo => simp [hpc, Pc.held] at hheld
    | out =>
      rw [hpc] at hstream
      cases hgone : s.serving.eossent w <;> rw [hgone] at hstream
      · exact absurd rfl hstream.2
      · exact (hstream.resolve_left fun h => h.2 rfl).1
  have hreturned : s.serving.returned = true := by
    by_contra hnot
    have hmore : ¬ s.serving.totaltasks ≤ 0 := fun h => hnot (hinv.returned.mpr h)
    have houts : ∀ w < loop.sched.nw, s.outWith w = 0 := by
      intro w hw
      have hout : s.output w = [] := by
        cases hout : s.output w with
        | nil => rfl
        | cons task rest => exact absurd (.collect hbox (by simpa using hnot) hout) (hterminal _ _)
      simp [State.outWith, hpending, hinput w hw, hidle, hout]
    have hsum : ∑ w ∈ Finset.range loop.sched.nw, s.outWith w = 0 :=
      Finset.sum_eq_zero fun w hw => houts w (Finset.mem_range.mp hw)
    have htotal := hinv.total
    cases hgone : s.serving.eossent 0 with
    | true =>
      rw [hinv.closed 0 hgone, List.length_nil] at htotal
      omega
    | false =>
      have := hinv.owed 0 hready.nw_pos hgone
      rw [houts 0 hready.nw_pos] at this
      omega
  refine ⟨hreturned, hbox, fun w hw => ?_⟩
  have hnone := (outWith_of_returned hinv hreturned).1 w
  have hstream := hinv.stream w
  rw [hpending, hinput w hw] at hstream
  have hgone : s.serving.eossent w = true := by
    by_contra hlive
    have := hinv.owed w hw (by simpa using hlive)
    omega
  rw [hgone] at hstream
  refine ⟨?_, hinput w hw, ?_⟩
  · rcases hstream with ⟨⟨tasks, heq, -⟩, -⟩ | ⟨-, hout⟩
    · simp at heq
    · exact hout
  · simp only [State.outWith, Nat.add_eq_zero_iff, List.length_eq_zero_iff] at hnone
    exact hnone.2

end ParallelWatermark.FastFlow.ParallelFor.Active
