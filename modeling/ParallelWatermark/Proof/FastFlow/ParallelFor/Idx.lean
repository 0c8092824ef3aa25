import ParallelWatermark.FastFlow.ParallelFor.Idx
import ParallelWatermark.Proof.FastFlow.ParallelFor.ActiveProgress
import ParallelWatermark.Proof.FastFlow.ParallelFor.PassiveProgress

/-!
# What `parallel_for_idx` does

Whoever takes the tasks, and in whatever order, the calls of `F` are the loop: each index once. So the
value that is left is what the bodies of these calls leave, their actions in some order.
-/

namespace ParallelWatermark.FastFlow.ParallelFor

open Buffer Process

variable {ε δ : Type} {loop : Loop ε δ} {numCores : Nat} {value value' : δ} {calls : List ForallTask}

/-- The indexes of a call. -/
def ForallTask.indexes (step : Int) (task : ForallTask) : List Int := strided step task.start task.stop

theorem indexes_eq {step : Int} (hstep : 0 < step) (task : ForallTask) :
    task.indexes step = task.calls.flatMap fun call => strided step call.1 call.2 := by
  rw [ForallTask.indexes, ForallTask.calls]
  split_ifs with hlt
  · simp
  · rw [strided_of_le hstep (by omega), List.flatMap_nil]

theorem flatMap_indexes_eq {step : Int} (hstep : 0 < step) (tasks : List ForallTask) :
    tasks.flatMap (ForallTask.indexes step) =
      (tasks.flatMap ForallTask.calls).flatMap fun call => strided step call.1 call.2 := by
  rw [List.flatMap_assoc]
  exact List.flatMap_congr fun task _ => indexes_eq hstep task

theorem dynamic_of_startScheduler {s : Scheduler} (hready : Ready s) (hsched : startScheduler s numCores) :
    s.staticScheduling = false := by
  by_contra hstatic
  have hones := hready.static (by simpa using hstatic)
  have htotal := hready.total
  rw [Finset.sum_congr rfl fun i hi => hones i (Finset.mem_range.mp hi)] at htotal
  have := hsched.1
  simp at htotal
  omega

/-- The calls cut the loop, and their actions are performed in some order. -/
theorem performs_spec (hready : Ready loop.sched) (hlt : loop.sched.start < loop.sched.stop)
    (hperforms : Performs loop numCores value calls value') :
    (∃ ranges, Cut loop.sched.step loop.sched.start loop.sched.stop ranges ∧
      (calls.flatMap ForallTask.calls).Perm ranges ∧
      (1 < loop.sched.nw → ranges = loop.sched.works)) ∧
    ∃ acts : List ε, acts.Perm (calls.flatMap loop.body) ∧ value' = acts.foldl (fun v a => loop.effect a v) value := by
  have hstep := hready.step_pos
  cases hperforms with
  | alone hone =>
    refine ⟨⟨[(loop.sched.start, loop.sched.stop)], ⟨_, .cons hlt (Int.le_refl _) (Or.inr rfl) (.nil _), by omega⟩, ?_,
      fun hmany => absurd hone (by omega)⟩, loop.body ⟨loop.sched.start, loop.sched.stop⟩, by simp, rfl⟩
    simp [ForallTask.calls, hlt]
  | active hmany hsched hrun hreturned =>
    have hdynamic := dynamic_of_startScheduler hready hsched
    obtain ⟨hcalls, hacts⟩ := Active.complete hready hdynamic hrun hreturned
    refine ⟨⟨loop.sched.works, hready.cut, ?_, fun _ => rfl⟩, _, ?_, Active.value_eq hrun⟩
    · rw [List.flatMap_map]
      exact hcalls
    · rw [List.flatMap_map]
      exact hacts
  | passive hmany hsched hrun hout =>
    obtain ⟨hcalls, hacts⟩ := Passive.complete hready hrun hout
    refine ⟨⟨loop.sched.works, hready.cut, ?_, fun _ => rfl⟩, _, ?_, Passive.value_eq hrun⟩
    · rw [List.flatMap_map]
      exact hcalls
    · rw [List.flatMap_map]
      exact hacts

/-- Some run comes to its end. -/
theorem exists_performs (hready : Ready loop.sched) (numCores : Nat) (value : δ) :
    ∃ calls value', Performs loop numCores value calls value' := by
  by_cases hmany : 1 < loop.sched.nw
  · by_cases hsched : startScheduler loop.sched numCores
    · have hdynamic := dynamic_of_startScheduler hready hsched
      obtain ⟨evs, s, hrun, hterminal⟩ := @Active.exists_terminal ε δ loop value [] _ hready hdynamic .nil
      have hquiet := Active.quiet_of_terminal hready (Active.inv_of_history hready hdynamic hrun) hterminal
      exact ⟨_, _, .active hmany hsched hrun hquiet.1⟩
    · obtain ⟨evs, s, hrun, hterminal⟩ := @Passive.exists_terminal ε δ loop value [] _ hready .nil
      exact ⟨_, _, .passive hmany hsched hrun (Passive.pc_of_terminal (Passive.inv_of_history hready hrun) hterminal)⟩
  · exact ⟨_, _, .alone (by omega)⟩

/-! ### Any call -/

theorem pos_of_setloop {start stop step chunk : Int} {nw : Nat} {sched : Scheduler}
    (hset : setloop start stop step chunk nw = some sched) : 0 < nw := by
  by_contra hzero
  obtain rfl : nw = 0 := by omega
  by_cases hchunk : chunk = 0
  · simp [setloop, initDataStatic, initDataEqually, hchunk] at hset
  · by_cases hneg : chunk ≤ 0
    · simp [setloop, initDataStatic, initDataRoundRobin, hchunk, hneg] at hset
    · simp [setloop, initData, hneg] at hset

theorem workersOf_le (maxnw : Int) (numCores : Nat) : workersOf maxnw numCores ≤ defMaxNumWorkers := by
  rw [workersOf]
  split_ifs <;> omega

theorem workersOf_pos_iff {maxnw : Int} : 0 < workersOf maxnw numCores ↔
    0 < created maxnw numCores ∧ created maxnw numCores ≤ defMaxNumWorkers := by
  rw [workersOf]
  split_ifs <;> omega

theorem created_eq {maxnw : Int} (hpos : 0 < workersOf maxnw numCores) : created maxnw numCores = workersOf maxnw numCores := by
  rw [workersOf] at *
  split_ifs at * with hmany
  · exact absurd hpos (by decide)
  · rfl

theorem parforDynamic_eq (grain : Int) : parforDynamic grain = |grain| := by
  rw [parforDynamic]
  split_ifs with hneg
  · exact (abs_of_neg hneg).symm
  · exact (abs_of_nonneg (not_lt.mp hneg)).symm

section Idx

variable {first last step grain maxnw : Int} {body : ForallTask → List ε} {effect : ε → δ → δ}
  (hsmall : Small first last step grain) (hstep : 0 < step) (hlt : first < last)
include hsmall

theorem Small.dynamic : Small first last step (parforDynamic grain) :=
  ⟨hsmall.start_gt, hsmall.stop_lt, hsmall.length_lt, hsmall.step_lt, by
    rw [parforDynamic_eq, abs_abs]
    exact hsmall.task_lt⟩

include hstep hlt

theorem setUp_of_parallelFor {sched : Scheduler}
    (hset : setloop first last step (parforDynamic grain) (workersOf maxnw numCores) = some sched) :
    SetUp first last step (parforDynamic grain) (workersOf maxnw numCores) sched := by
  have hnonneg : 0 ≤ parforDynamic grain := parforDynamic_eq grain ▸ abs_nonneg grain
  exact setUp_of_setloop hsmall.dynamic hstep hnonneg (pos_of_setloop hset)
    ((workersOf_le maxnw numCores).trans_lt (by decide)) hlt hset

theorem cut_of_parallelForIdx
    (hrun : parallelForIdx numCores maxnw first last step grain body effect value calls value') :
    (∃ ranges, Cut step first last ranges ∧ (calls.flatMap ForallTask.calls).Perm ranges) ∧
      ∃ acts : List ε, acts.Perm (calls.flatMap body) ∧ value' = acts.foldl (fun v a => effect a v) value := by
  obtain ⟨sched, hset, hperforms⟩ := hrun
  have hsetUp := setUp_of_parallelFor hsmall hstep hlt hset
  obtain ⟨⟨ranges, hcut, hperm, -⟩, hacts⟩ := performs_spec hsetUp.ready
    (by rw [hsetUp.start_eq, hsetUp.stop_eq]; exact hlt) hperforms
  rw [hsetUp.step_eq, hsetUp.start_eq, hsetUp.stop_eq] at hcut
  exact ⟨⟨ranges, hcut, hperm⟩, hacts⟩

/-- A call comes to its end if the `ParallelFor` has workers. -/
theorem exists_parallelForIdx (hworkers : 0 < workersOf maxnw numCores) (body : ForallTask → List ε) (effect : ε → δ → δ)
    (value : δ) :
    ∃ calls value', parallelForIdx numCores maxnw first last step grain body effect value calls value' := by
  have hnonneg : 0 ≤ parforDynamic grain := parforDynamic_eq grain ▸ abs_nonneg grain
  obtain ⟨sched, hset, hsetUp⟩ := setloop_setUp hsmall.dynamic hstep hnonneg hworkers
    ((workersOf_le maxnw numCores).trans_lt (by decide)) hlt
  obtain ⟨calls, value', hperforms⟩ := @exists_performs ε δ ⟨sched, body, effect⟩ hsetUp.ready numCores value
  exact ⟨calls, value', sched, hset, hperforms⟩

/-- A call can come to its end exactly if the workers to be created are one to 254. Whatever the schedule, `F`
is then called for each index of the loop exactly once, and when `parallel_for_idx` returns all these calls have
performed their actions, and nothing else. -/
theorem parallelForIdx_covers (body : ForallTask → List ε) (effect : ε → δ → δ) (value : δ) :
    ((∃ calls value', parallelForIdx numCores maxnw first last step grain body effect value calls value') ↔
      0 < created maxnw numCores ∧ created maxnw numCores ≤ defMaxNumWorkers) ∧
    ∀ calls value', parallelForIdx numCores maxnw first last step grain body effect value calls value' →
      (calls.flatMap (ForallTask.indexes step)).Perm (strided step first last) ∧
        ∃ acts : List ε, acts.Perm (calls.flatMap body) ∧ value' = acts.foldl (fun v a => effect a v) value := by
  rw [← workersOf_pos_iff]
  refine ⟨⟨fun ⟨_, _, _, hset, _⟩ => pos_of_setloop hset, fun hworkers => ?_⟩, fun calls value' hrun => ?_⟩
  · exact exists_parallelForIdx hsmall hstep hlt hworkers body effect value
  · obtain ⟨⟨ranges, hcut, hperm⟩, hacts⟩ := cut_of_parallelForIdx hsmall hstep hlt hrun
    refine ⟨?_, hacts⟩
    rw [flatMap_indexes_eq hstep, ← hcut.flatMap_strided hstep]
    exact hperm.flatMap_right _

end Idx

/-- The sum of 0, 2 and 4, by two workers. -/
theorem parallelForIdx_covers_inhabited : ∃ calls value',
    parallelForIdx 2 2 0 5 2 1 (ForallTask.indexes 2) (fun i sum => sum + i) 0 calls value' ∧ value' = 6 := by
  have hcovers := @parallelForIdx_covers Int Int 2 0 5 2 1 2 (by constructor <;> decide) (by decide) (by decide)
    (ForallTask.indexes 2) (fun i sum => sum + i) 0
  obtain ⟨calls, value', hrun⟩ := hcovers.1.mpr (by decide)
  obtain ⟨hcalls, acts, hacts, hvalue⟩ := hcovers.2 calls value' hrun
  refine ⟨calls, value', hrun, ?_⟩
  rw [hvalue, ← List.sum_eq_foldl, (hacts.trans hcalls).sum_eq]
  decide

end ParallelWatermark.FastFlow.ParallelFor
