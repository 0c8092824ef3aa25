import ParallelWatermark.Proof.FastFlow.ParallelFor.Idx

/-!
# The runs of the workers

What holds while the workers are at it: no index is taken twice, no access leaves the table, and
nobody goes out while its own entry has tasks. And every run comes to its end, with a scheduler thread
or without.
-/

namespace ParallelWatermark.FastFlow.ParallelFor

open Buffer Process

variable {ε δ : Type} {loop : Loop ε δ} {value : δ} {first last step chunk : Int} {nw numCores : Nat}

/-- Calls that are a part of a cut. -/
theorem perm_indexes {calls : List ForallTask} {rest ranges : List (Int × Int)} (hstep : 0 < step)
    (hcut : Cut step first last ranges) (hperm : (calls.flatMap ForallTask.calls ++ rest).Perm ranges) :
    ∃ more, (calls.flatMap (ForallTask.indexes step) ++ more).Perm (strided step first last) := by
  refine ⟨rest.flatMap fun call => strided step call.1 call.2, ?_⟩
  rw [flatMap_indexes_eq hstep, ← List.flatMap_append, ← hcut.flatMap_strided hstep]
  exact hperm.flatMap_right _

/-! ### Without a scheduler thread -/

namespace Passive

section Runs

variable (hsmall : Small first last step chunk) (hstep : 0 < step) (hchunk : 0 ≤ chunk) (hmax : nw < 2 ^ 53)
  (hlt : first < last) (hset : setloop first last step chunk nw = some loop.sched)
include hsmall hstep hchunk hmax hlt hset

/-- In every state that the workers reach: the indexes of the calls so far are indexes of the loop, none
of them twice; each worker has performed its calls one after the other, up to where it is; the entries
that the next accesses concern are entries of the table; and a worker that is out has left its own entry
empty. -/
theorem taken_once {evs : List (Event loop.sched ε)} {s : State loop.sched ε δ} (hrun : History loop value evs s) :
    (∃ rest, (((calls loop evs).map Prod.snd).flatMap (ForallTask.indexes step) ++ rest).Perm (strided step first last)) ∧
      (∀ w, Farm.ofWorker w (evs.flatMap Event.acts) <+: (Farm.ofWorker w (calls loop evs)).flatMap loop.body) ∧
      (∀ w, (s.pc w).Within nw) ∧
      ∀ w, s.pc w = .out → (s.data w).task.stop ≤ (s.data w).task.start := by
  have hsetUp := setUp_of_setloop hsmall hstep hchunk (pos_of_setloop hset) hmax hlt hset
  have hready := hsetUp.ready
  have hinv := inv_of_history hready hrun
  have hcut := hready.cut
  have hcalls := calls_perm hready hrun
  rw [hsetUp.step_eq, hsetUp.start_eq, hsetUp.stop_eq] at hcut
  rw [← List.flatMap_map Prod.snd ForallTask.calls] at hcalls
  refine ⟨perm_indexes hstep hcut hcalls, fun w => ⟨_, acts_append_todo hready hrun w⟩, fun w => ?_, fun w hout => ?_⟩
  · rw [← hsetUp.size_eq]
    exact hinv.within w
  · have hknows := hinv.knows w
    rw [hout] at hknows
    have hnil : workOf loop.sched.step loop.sched.endchunk (s.data w) = [] := hknows
    by_contra hmore
    rw [workOf, pieces_of_lt hready.step_pos hready.endchunk_pos (by omega)] at hnil
    exact absurd hnil (by simp)

/-- A worker stops only at its end, every run can be continued until all have, and its length is bounded
but for the exchanges that fail for no reason. -/
theorem workers_go_out (value : δ) :
    (∃ bound, ∀ evs s, History loop value evs s → evs.length ≤ bound + 3 * evs.countP Event.spurious) ∧
      ∀ evs s, History loop value evs s →
        (Terminal (Step loop) s ↔ ∀ w, s.pc w = .out) ∧
          ∃ more t, History loop value (evs ++ more) t ∧ ∀ w, t.pc w = .out := by
  have hready := (setUp_of_setloop hsmall hstep hchunk (pos_of_setloop hset) hmax hlt hset).ready
  have hends : ∀ evs s, History loop value evs s → Terminal (Step loop) s → ∀ w, s.pc w = .out :=
    fun evs s hrun hterminal w => pc_of_terminal (inv_of_history hready hrun) hterminal w
  refine ⟨⟨_, fun evs s hrun => length_le hready hrun⟩, fun evs s hrun => ⟨⟨hends evs s hrun, fun hout e s' h => ?_⟩, ?_⟩⟩
  · cases h <;> simp_all [Pc.read]
  · obtain ⟨more, t, hmore, hterminal⟩ := exists_terminal hready hrun
    exact ⟨more, t, hmore, hends _ t hmore hterminal⟩

end Runs

/-- Three indexes for two workers. -/
theorem exists_threeIndexes : Small 0 5 2 1 ∧ ∃ sched, setloop 0 5 2 1 2 = some sched ∧ Ready sched := by
  have hsmall : Small 0 5 2 1 := by constructor <;> decide
  obtain ⟨sched, hset, hsetUp⟩ := setloop_setUp hsmall (by decide) (by decide) (show 0 < 2 by decide) (by decide) (by decide)
  exact ⟨hsmall, sched, hset, hsetUp.ready⟩

/-- Both workers go on until they are out. -/
theorem workers_go_out_inhabited : ∃ sched, setloop 0 5 2 1 2 = some sched ∧ ∃ evs s,
    History ⟨sched, ForallTask.indexes 2, fun i sum => sum + i⟩ (0 : Int) evs s ∧ ∀ w, s.pc w = .out := by
  obtain ⟨hsmall, sched, hset, -⟩ := exists_threeIndexes
  have hends := @workers_go_out Int Int ⟨sched, ForallTask.indexes 2, fun i sum => sum + i⟩ 0 5 2 1 2
    hsmall (by decide) (by decide) (by decide) (by decide) hset 0
  obtain ⟨more, t, hmore, hout⟩ := (hends.2 [] _ .nil).2
  exact ⟨sched, hset, _, t, hmore, hout⟩

theorem taken_once_inhabited : ∃ sched, setloop 0 5 2 1 2 = some sched ∧ ∃ evs s,
    History ⟨sched, ForallTask.indexes 2, fun i sum => sum + i⟩ (0 : Int) evs s ∧
      ∀ w, s.pc w = .out ∧ (s.data w).task.stop ≤ (s.data w).task.start := by
  obtain ⟨hsmall, sched, hset, hready⟩ := exists_threeIndexes
  obtain ⟨evs, s, hrun, hterminal⟩ := @exists_terminal Int Int ⟨sched, ForallTask.indexes 2, fun i sum => sum + i⟩ 0 [] _
    hready .nil
  have hout := pc_of_terminal (inv_of_history hready hrun) hterminal
  have hempty := (taken_once hsmall (by decide) (by decide) (by decide) (by decide) hset hrun).2.2.2
  exact ⟨sched, hset, _, s, hrun, fun w => ⟨hout w, hempty w (hout w)⟩⟩

end Passive

/-! ### With a scheduler thread -/

namespace Active

variable {evs : List (Event ε)} {s s' : State ε δ} {e : Event ε}

def Event.pops : Event ε → List (Nat × Msg)
  | .pop wid msg => [(wid, msg)]
  | _ => []

/-- What a worker has received: tasks, and `GO_OUT` as the last if it is out. -/
def Received (msgs : List Msg) : Pc ε → Prop
  | .out => ∃ tasks, msgs = tasks ++ [.goOut] ∧ Msg.goOut ∉ tasks
  | _ => Msg.goOut ∉ msgs

theorem received_step {msgs : List Msg} {w : Nat} (hreceived : Received msgs (s.pc w)) (hstep : Step loop s e s') :
    Received (msgs ++ Farm.ofWorker w e.pops) (s'.pc w) := by
  cases hstep with
  | send hbox => simpa [Event.pops, Farm.ofWorker] using hreceived
  | collect hbox hreturned hout => simpa [Event.pops, Farm.ofWorker] using hreceived
  | @pop v msg rest hwid hpc hin =>
    by_cases hv : w = v
    · subst hv
      rw [hpc] at hreceived
      have hnot : Msg.goOut ∉ msgs := hreceived
      cases msg with
      | task task => simpa [Event.pops, Farm.ofWorker, afterPop, Received] using hnot
      | goOut => simpa [Event.pops, Farm.ofWorker, afterPop, Received] using hnot
    · simpa [Event.pops, Farm.ofWorker, Ne.symm hv, Function.update_of_ne hv] using hreceived
  | @act v task a todo hpc =>
    by_cases hv : w = v
    · subst hv
      rw [hpc] at hreceived
      simpa [Event.pops, Farm.ofWorker, Received] using hreceived
    · simpa [Event.pops, Farm.ofWorker, Function.update_of_ne hv] using hreceived
  | @giveBack v task hpc =>
    by_cases hv : w = v
    · subst hv
      rw [hpc] at hreceived
      simpa [Event.pops, Farm.ofWorker, Received] using hreceived
    · simpa [Event.pops, Farm.ofWorker, Function.update_of_ne hv] using hreceived

theorem received_of_history (hrun : History loop value evs s) (w : Nat) :
    Received (Farm.ofWorker w (evs.flatMap Event.pops)) (s.pc w) := by
  refine hrun.invariant (motive := fun evs (s : State ε δ) =>
    Received (Farm.ofWorker w (evs.flatMap Event.pops)) (s.pc w)) (by simp [Farm.ofWorker, start, Received]) ?_
  intro evs s e s' _ hreceived hstep
  rw [List.flatMap_append, List.flatMap_singleton, Farm.ofWorker_append]
  exact received_step hreceived hstep

theorem maxElement_lt {sched : Scheduler} (data : Table) (hsize : 0 < sched.size) : maxElement sched data < sched.size := by
  have hfold : ∀ ks : List Nat, (∀ k ∈ ks, k < sched.size) → ∀ largest < sched.size,
      ks.foldl (fun largest k => if (data largest).ntask < (data k).ntask then k else largest) largest < sched.size := by
    intro ks hks
    induction ks with
    | nil => exact fun _ hlargest => hlargest
    | cons k ks ih =>
      intro largest hlargest
      refine ih (fun j hj => hks j (List.mem_cons_of_mem _ hj)) _ ?_
      dsimp only
      split_ifs
      · exact hks k List.mem_cons_self
      · exact hlargest
  refine hfold _ (fun k hk => ?_) 0 hsize
  have := List.mem_range'_1.mp hk
  omega

theorem maxid_svc {sched : Scheduler} (hsize : 0 < sched.size) {t : Serving} (hmaxid : t.maxid < sched.size) (wid : Nat) :
    (svc sched t wid).2.maxid < sched.size := by
  have hnext : (nextTask sched t.data t.maxid wid).2 < sched.size := by
    have hmax : (maxElement sched t.data : Int) < sched.size := by exact_mod_cast maxElement_lt t.data hsize
    simp only [nextTask]
    split_ifs
    · exact hmaxid
    · exact hmaxid
    · exact hmax
    · exact hmax
  have hgone : ∀ t : Serving, (goOut t wid).2.maxid = t.maxid := by
    intro t
    rw [goOut]
    split_ifs <;> rfl
  simp only [svc]
  split_ifs
  · simpa only [hgone] using hmaxid
  · split
    · exact hnext
    · simpa only [hgone] using hnext

theorem maxid_lt (hsize : 0 < loop.sched.size) (hrun : History loop value evs s) : s.serving.maxid < loop.sched.size := by
  refine hrun.invariant (motive := fun _ (s : State ε δ) => s.serving.maxid < loop.sched.size)
    (show (-1 : Int) < loop.sched.size by omega) ?_
  intro evs s e s' _ hmaxid hstep
  cases hstep with
  | collect => exact maxid_svc hsize hmaxid _
  | send => exact hmaxid
  | pop => exact hmaxid
  | act => exact hmaxid
  | giveBack => exact hmaxid

section Runs

variable (hsmall : Small first last step chunk) (hstep : 0 < step) (hchunk : 0 ≤ chunk) (hmax : nw < 2 ^ 53)
  (hlt : first < last) (hset : setloop first last step chunk nw = some loop.sched)
  (hsched : startScheduler loop.sched numCores)
include hsmall hstep hchunk hmax hlt hset hsched

/-- In every state: the indexes of the calls so far are indexes of the loop, none of them twice; each
worker has performed its calls one after the other, up to where it is; `GO_OUT` has reached those who are
out, once, as their last message, and nobody else; and once the scheduler has returned nobody has a task. -/
theorem served_once (hrun : History loop value evs s) :
    (∃ rest, (((evs.flatMap Event.calls).map Prod.snd).flatMap (ForallTask.indexes step) ++ rest).Perm
        (strided step first last)) ∧
      (∀ w, Farm.ofWorker w (evs.flatMap Event.acts) <+: (Farm.ofWorker w (evs.flatMap Event.calls)).flatMap loop.body) ∧
      (∀ w, Received (Farm.ofWorker w (evs.flatMap Event.pops)) (s.pc w)) ∧
      s.serving.maxid < nw ∧
      (s.serving.returned = true → ∀ w, s.outWith w = 0) := by
  have hsetUp := setUp_of_setloop hsmall hstep hchunk (pos_of_setloop hset) hmax hlt hset
  have hready := hsetUp.ready
  have hdynamic := dynamic_of_startScheduler hready hsched
  have hcut := hready.cut
  have hcalls := calls_perm hready hdynamic hrun
  rw [hsetUp.step_eq, hsetUp.start_eq, hsetUp.stop_eq] at hcut
  rw [← List.flatMap_map Prod.snd ForallTask.calls] at hcalls
  refine ⟨perm_indexes hstep hcut hcalls, fun w => ⟨_, acts_append_todo hrun w⟩, received_of_history hrun, ?_,
    fun hreturned => (outWith_of_returned (inv_of_history hready hdynamic hrun) hreturned).1⟩
  rw [← hsetUp.size_eq]
  exact maxid_lt (hready.nw_pos.trans_le hready.nw_le) hrun

/-- The number of steps is bounded, and every run can be continued until the scheduler has returned, all
workers are out and no message is left. It can stop nowhere else. -/
theorem scheduler_returns (value : δ) :
    (∃ bound, ∀ evs s, History loop value evs s → evs.length ≤ bound) ∧
      ∀ evs s, History loop value evs s →
        (Terminal (Step loop) s → s.serving.returned = true ∧ s.outbox = [] ∧
          ∀ w < loop.sched.nw, s.pc w = .out ∧ s.input w = [] ∧ s.output w = []) ∧
        ∃ more t, History loop value (evs ++ more) t ∧ Terminal (Step loop) t := by
  have hready := (setUp_of_setloop hsmall hstep hchunk (pos_of_setloop hset) hmax hlt hset).ready
  have hdynamic := dynamic_of_startScheduler hready hsched
  refine ⟨⟨rank loop (start loop value), fun evs s hrun => ?_⟩, fun evs s hrun => ⟨fun hterminal => ?_, ?_⟩⟩
  · have := length_le hready hdynamic hrun
    omega
  · exact quiet_of_terminal hready (inv_of_history hready hdynamic hrun) hterminal
  · exact exists_terminal hready hdynamic hrun

end Runs

/-- Five indexes for two workers on three cores. -/
theorem exists_fiveTasks : Small 0 5 1 1 ∧ ∃ sched, setloop 0 5 1 1 2 = some sched ∧ Ready sched ∧ startScheduler sched 3 := by
  have hsmall : Small 0 5 1 1 := by constructor <;> decide
  obtain ⟨sched, hset, hsetUp⟩ := setloop_setUp hsmall (by decide) (by decide) (show 0 < 2 by decide) (by decide) (by decide)
  have htasks := hsetUp.tasks (by decide)
  rw [if_neg (by decide), show ceilDiv (ceilDiv (5 - 0) 1) 1 = 5 by decide] at htasks
  have hnw := hsetUp.nw_eq
  rw [htasks.2] at hnw
  refine ⟨hsmall, sched, hset, hsetUp.ready, ?_, ?_⟩ <;> omega

theorem scheduler_returns_inhabited : ∃ sched, setloop 0 5 1 1 2 = some sched ∧ ∃ evs s,
    History ⟨sched, ForallTask.indexes 1, fun i sum => sum + i⟩ (0 : Int) evs s ∧ s.serving.returned = true := by
  obtain ⟨hsmall, sched, hset, -, hsched⟩ := exists_fiveTasks
  have hends := @scheduler_returns Int Int ⟨sched, ForallTask.indexes 1, fun i sum => sum + i⟩ 0 5 1 1 2 3
    hsmall (by decide) (by decide) (by decide) (by decide) hset hsched 0
  obtain ⟨more, t, hmore, hterminal⟩ := (hends.2 [] _ .nil).2
  exact ⟨sched, hset, _, t, hmore, ((hends.2 _ t hmore).1 hterminal).1⟩

theorem served_once_inhabited : ∃ sched, setloop 0 5 1 1 2 = some sched ∧ ∃ evs s,
    History ⟨sched, ForallTask.indexes 1, fun i sum => sum + i⟩ (0 : Int) evs s ∧
      s.serving.returned = true ∧ ∀ w, s.outWith w = 0 := by
  obtain ⟨hsmall, sched, hset, hready, hsched⟩ := exists_fiveTasks
  have hdynamic := dynamic_of_startScheduler hready hsched
  obtain ⟨more, t, hmore, hterminal⟩ := @exists_terminal Int Int ⟨sched, ForallTask.indexes 1, fun i sum => sum + i⟩ 0 [] _
    hready hdynamic .nil
  have hreturned := (quiet_of_terminal hready (inv_of_history hready hdynamic hmore) hterminal).1
  have hnone := (served_once hsmall (by decide) (by decide) (by decide) (by decide) hset hsched hmore).2.2.2.2
  exact ⟨sched, hset, _, t, hmore, hreturned, hnone hreturned⟩

end Active

end ParallelWatermark.FastFlow.ParallelFor
