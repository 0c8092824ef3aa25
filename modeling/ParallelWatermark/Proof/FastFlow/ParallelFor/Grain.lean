import ParallelWatermark.Proof.FastFlow.ParallelFor.Idx

/-!
# The grain

A positive grain is to bound the number of iterations that a worker computes at a time. It does so but
for two kinds of loop: a single worker gets the whole loop, and where there is one task more than
workers `init_data` doubles the chunk.
-/

namespace ParallelWatermark.FastFlow.ParallelFor

open Buffer Process

variable {ε δ : Type} {first last step grain maxnw : Int} {numCores : Nat} {body : ForallTask → List ε}
  {effect : ε → δ → δ} {value value' : δ} {calls : List ForallTask}

theorem forall_indexes_iff {ranges : List (Int × Int)} {c : Int} (hstep : 0 < step) (hc : 0 ≤ c)
    (hperm : (calls.flatMap ForallTask.calls).Perm ranges) :
    (∀ call ∈ calls, ((call.indexes step).length : Int) ≤ c) ↔
      ∀ range ∈ ranges, ((strided step range.1 range.2).length : Int) ≤ c := by
  constructor
  · intro hall range hrange
    obtain ⟨call, hcall, hmem⟩ := List.mem_flatMap.mp (hperm.mem_iff.mpr hrange)
    have hle := hall call hcall
    rw [ForallTask.calls] at hmem
    split_ifs at hmem
    · obtain rfl := List.mem_singleton.mp hmem
      exact hle
    · simp at hmem
  · intro hall call hcall
    by_cases hlt : call.start < call.stop
    · refine hall (call.start, call.stop) (hperm.mem_iff.mp (List.mem_flatMap.mpr ⟨call, hcall, ?_⟩))
      simp [ForallTask.calls, hlt]
    · rw [ForallTask.indexes, strided_of_le hstep (by omega)]
      simpa using hc

theorem length_strided_eq {lo hi : Int} (hstep : 0 < step) (hlt : lo < hi) :
    ((strided step lo hi).length : Int) = ceilDiv (hi - lo) step := by
  have := ceilDiv_pos (show 0 < hi - lo by omega) hstep
  rw [length_strided]
  rw [ceilDiv] at *
  omega

theorem ceilDiv_le_one_iff (a : Int) {b : Int} (hb : 0 < b) : ceilDiv a b ≤ 1 ↔ a ≤ b := by
  obtain ⟨hbefore, hafter⟩ := ceilDiv_spec a hb
  constructor
  · intro hle
    have := mul_le_mul_of_nonneg_right hle hb.le
    omega
  · intro hle
    by_contra hmore
    have := mul_le_mul_of_nonneg_right (show 1 ≤ ceilDiv a b - 1 by omega) hb.le
    omega

theorem Ready.length_of_mem_works {s : Scheduler} (hready : Ready s) {range : Int × Int} (hrange : range ∈ s.works) :
    ((strided s.step range.1 range.2).length : Int) ≤ s.chunk := by
  obtain ⟨i, -, hmem⟩ := List.mem_flatMap.mp hrange
  exact length_strided_le hready.step_pos hready.chunk_pos.le (snd_le_of_mem_pieces hmem)

/-- Some task is larger than what the loop has for each of them. -/
theorem Ready.exists_long {s : Scheduler} (hready : Ready s) (hlt : s.start < s.stop) {c : Nat}
    (hmore : (s.works.length : Int) * c < ceilDiv (s.stop - s.start) s.step) :
    ∃ range ∈ s.works, (c : Int) < (strided s.step range.1 range.2).length := by
  by_contra hnone
  simp only [not_exists, not_and, not_lt] at hnone
  have hall := length_flatMap_le fun range hrange => Int.ofNat_le.mp (hnone range hrange)
  rw [hready.cut.flatMap_strided hready.step_pos] at hall
  have heq := length_strided_eq hready.step_pos hlt
  have : ((strided s.step s.start s.stop).length : Int) ≤ s.works.length * c := by exact_mod_cast hall
  omega

section Performs

variable {chunk : Int} {nw : Nat} {sched : Scheduler} (hsetUp : SetUp first last step chunk nw sched) (hlt : first < last)
include hsetUp hlt

/-- How large the calls are: the whole loop, or the tasks of the table. -/
theorem indexes_le_iff (hperforms : Performs ⟨sched, body, effect⟩ numCores value calls value') {c : Int} (hc : 0 ≤ c) :
    (∀ call ∈ calls, ((call.indexes step).length : Int) ≤ c) ↔
      if sched.nw ≤ 1 then ceilDiv (last - first) step ≤ c
      else ∀ range ∈ sched.works, ((strided step range.1 range.2).length : Int) ≤ c := by
  have hready := hsetUp.ready
  have hstep : 0 < step := hsetUp.step_eq ▸ hready.step_pos
  split_ifs with hone
  · cases hperforms with
    | alone _ =>
      simp only [List.mem_singleton, forall_eq, ForallTask.indexes]
      rw [hsetUp.start_eq, hsetUp.stop_eq, length_strided_eq hstep hlt]
    | active hmany => exact absurd hmany (not_lt.mpr hone)
    | passive hmany => exact absurd hmany (not_lt.mpr hone)
  · obtain ⟨ranges, -, hperm, hworks⟩ := (performs_spec hready
      (by rw [hsetUp.start_eq, hsetUp.stop_eq]; exact hlt) hperforms).1
    rw [hworks (not_le.mp hone)] at hperm
    exact forall_indexes_iff hstep hc hperm

/-- Where the loop has more indexes than `c` for each task, some task has more. -/
theorem not_forall_works {c : Nat} (hmore : (sched.works.length : Int) * c < ceilDiv (last - first) step) :
    ¬ ∀ range ∈ sched.works, ((strided step range.1 range.2).length : Int) ≤ c := by
  intro hall
  have hlt' : sched.start < sched.stop := by rw [hsetUp.start_eq, hsetUp.stop_eq]; exact hlt
  obtain ⟨range, hrange, hlong⟩ := hsetUp.ready.exists_long hlt' (c := c)
    (by rw [hsetUp.start_eq, hsetUp.stop_eq, hsetUp.step_eq]; exact hmore)
  have := hall range hrange
  rw [hsetUp.step_eq] at hlong
  omega

end Performs

theorem SetUp.dynamic {chunk : Int} {nw : Nat} {sched : Scheduler} (hsetUp : SetUp first last step chunk nw sched)
    (hchunk : 0 < chunk) : sched.staticScheduling = false := by
  by_contra hstatic
  have := hsetUp.static_iff.mp (by simpa using hstatic)
  omega

/-- No call of `F` has more than `grain` iterations, exactly if the loop has only one task, or more than
one worker and not one task more than workers. -/
theorem grain_bounds_iff (hsmall : Small first last step grain) (hstep : 0 < step) (hgrain : 0 < grain) (hlt : first < last)
    (hrun : parallelForIdx numCores maxnw first last step grain body effect value calls value') :
    (∀ call ∈ calls, ((call.indexes step).length : Int) ≤ grain) ↔
      ceilDiv (ceilDiv (last - first) step) grain ≤ 1 ∨
        created maxnw numCores ≠ 1 ∧ ceilDiv (ceilDiv (last - first) step) grain ≠ created maxnw numCores + 1 := by
  obtain ⟨sched, hset, hperforms⟩ := hrun
  have hworkers := pos_of_setloop hset
  have hsetUp := setUp_of_parallelFor hsmall hstep hlt hset
  rw [parforDynamic, if_neg (by omega)] at hsetUp
  rw [created_eq hworkers]
  have hpos := ceilDiv_pos (ceilDiv_pos (show 0 < last - first by omega) hstep) hgrain
  have htasks := hsetUp.tasks hgrain
  have hnw := hsetUp.nw_eq
  have hlength := hsetUp.ready.totaltasks_eq (hsetUp.dynamic hgrain)
  rw [indexes_le_iff hsetUp hlt hperforms hgrain.le]
  by_cases hdouble : Doubled (ceilDiv (ceilDiv (last - first) step) grain) (workersOf maxnw numCores)
  · -- The chunk is twice the grain.
    rw [if_pos hdouble] at htasks
    obtain ⟨heq, hmany⟩ := hdouble
    obtain ⟨n, rfl⟩ := Int.eq_ofNat_of_zero_le hgrain.le
    rw [if_neg (by omega)]
    refine iff_of_false (not_forall_works hsetUp hlt ?_) (by omega)
    rw [← hlength, htasks.2]
    exact (ceilDiv_spec _ hgrain).1
  · rw [if_neg hdouble] at htasks
    rw [Doubled] at hdouble
    split_ifs with hone
    · rw [← ceilDiv_le_one_iff _ hgrain]
      omega
    · refine iff_of_true (fun range hrange => ?_) (by omega)
      have hle := hsetUp.ready.length_of_mem_works hrange
      rwa [hsetUp.step_eq, htasks.1] at hle

/-- Three tasks for two workers. -/
theorem grain_bounds_iff_inhabited : ∃ calls value',
    parallelForIdx 2 2 0 3 1 1 (ForallTask.indexes 1) (fun i sum => sum + i) (0 : Int) calls value' ∧
      ¬ ∀ call ∈ calls, ((call.indexes 1).length : Int) ≤ 1 := by
  have hsmall : Small 0 3 1 1 := by constructor <;> decide
  obtain ⟨calls, value', hrun⟩ := exists_parallelForIdx hsmall (by decide) (by decide)
    (show 0 < workersOf 2 2 by decide) (ForallTask.indexes 1) (fun i sum : Int => sum + i) 0
  exact ⟨calls, value', hrun, fun hall =>
    absurd ((grain_bounds_iff hsmall (by decide) (by decide) (by decide) hrun).mp hall) (by decide)⟩

/-! ### One index at a time -/

theorem Ready.length_works_le {sched : Scheduler} (hready : Ready sched) : (sched.works.length : Int) ≤ sched.totaltasks := by
  have hsum : ∀ n, (((List.range n).flatMap sched.work).length : Int) ≤ ∑ i ∈ Finset.range n, (sched.data i).ntask := by
    intro n
    induction n with
    | zero => simp
    | succ n ih =>
      have henough := hready.enough n
      rw [List.range_succ, List.flatMap_append, List.length_append, List.flatMap_singleton, Finset.sum_range_succ]
      push_cast
      omega
  rw [hready.total]
  exact hsum sched.nw

section Singles

variable {nw : Nat} {sched : Scheduler} (hlt : first < last) (hstep : 0 < step)
include hlt hstep

theorem singles_static_iff (hsetUp : SetUp first last step 0 nw sched)
    (hperforms : Performs ⟨sched, body, effect⟩ numCores value calls value') :
    (∀ call ∈ calls, ((call.indexes step).length : Int) ≤ 1) ↔
      ceilDiv (last - first) step = 1 ∨ nw ≠ 1 ∧ ceilDiv (last - first) step ≤ nw := by
  have hpos := ceilDiv_pos (show 0 < last - first by omega) hstep
  have hrunning := hsetUp.nw_eq
  obtain ⟨htotal, hchunk⟩ := hsetUp.shares rfl
  rw [indexes_le_iff hsetUp hlt hperforms (by decide)]
  split_ifs with hone
  · omega
  · by_cases hfew : ceilDiv (last - first) step ≤ nw
    · refine iff_of_true (fun range hrange => ?_) (by omega)
      have hle := hsetUp.ready.length_of_mem_works hrange
      have hsingle : sched.chunk = 1 := by
        rcases hfew.eq_or_lt with heq | hless
        · rw [hchunk, heq, Int.emod_self, if_neg (by decide), Int.ediv_self (by omega)]
        · rw [hchunk, Int.emod_eq_of_lt hpos.le hless, if_pos hpos.ne', Int.ediv_eq_zero_of_lt hpos.le hless, zero_add]
      rwa [hsetUp.step_eq, hsingle] at hle
    · have hlength := hsetUp.ready.length_works_le
      exact iff_of_false (not_forall_works (c := 1) hsetUp hlt (by push_cast; omega)) (by omega)

theorem singles_dynamic_iff {grain : Int} (hgrain : 0 < grain) (hsetUp : SetUp first last step grain nw sched)
    (hperforms : Performs ⟨sched, body, effect⟩ numCores value calls value') :
    (∀ call ∈ calls, ((call.indexes step).length : Int) ≤ 1) ↔
      ceilDiv (last - first) step = 1 ∨ nw ≠ 1 ∧ grain = 1 ∧ ceilDiv (last - first) step ≠ nw + 1 := by
  have hpos := ceilDiv_pos (show 0 < last - first by omega) hstep
  have hrunning := hsetUp.nw_eq
  have hstarted := hsetUp.ready.nw_pos
  have htasks := hsetUp.tasks hgrain
  have hlength := hsetUp.ready.length_works_le
  have hcount := ceilDiv_spec (ceilDiv (last - first) step) hgrain
  have hsome := ceilDiv_pos hpos hgrain
  rw [indexes_le_iff hsetUp hlt hperforms (by decide)]
  generalize hn : ceilDiv (last - first) step = n at *
  generalize ceilDiv n grain = tasks at *
  by_cases hunit : grain = 1
  · subst hunit
    simp only [mul_one] at hcount
    split_ifs at htasks with hdouble
    · obtain ⟨heq, hmany⟩ := hdouble
      rw [if_neg (by omega)]
      exact iff_of_false (not_forall_works (c := 1) hsetUp hlt (by push_cast; omega)) (by omega)
    · rw [Doubled] at hdouble
      split_ifs with hone
      · omega
      · refine iff_of_true (fun range hrange => ?_) (by omega)
        have hle := hsetUp.ready.length_of_mem_works hrange
        rwa [hsetUp.step_eq, htasks.1] at hle
  · -- More than one index for each task but the last.
    have hfew : 2 * (tasks - 1) < n := by
      have : (tasks - 1) * 2 ≤ (tasks - 1) * grain := mul_le_mul_of_nonneg_left (by omega) (by omega)
      omega
    have hle : sched.totaltasks ≤ tasks := by split_ifs at htasks <;> omega
    split_ifs with hone
    · omega
    · exact iff_of_false (not_forall_works (c := 1) hsetUp hlt (by push_cast; omega)) (by omega)

end Singles

/-- Every call of `F` is for one index, exactly if the loop has only one, or more than one worker and
either, under static scheduling, no more indexes than workers, or a grain of one and not one index more than
workers. -/
theorem singles_iff (hsmall : Small first last step grain) (hstep : 0 < step) (hlt : first < last)
    (hrun : parallelForIdx numCores maxnw first last step grain body effect value calls value') :
    (∀ call ∈ calls, ((call.indexes step).length : Int) ≤ 1) ↔
      ceilDiv (last - first) step = 1 ∨ created maxnw numCores ≠ 1 ∧
        if grain = 0 then ceilDiv (last - first) step ≤ created maxnw numCores
        else parforDynamic grain = 1 ∧ ceilDiv (last - first) step ≠ created maxnw numCores + 1 := by
  obtain ⟨sched, hset, hperforms⟩ := hrun
  have hsetUp := setUp_of_parallelFor hsmall hstep hlt hset
  rw [created_eq (pos_of_setloop hset)]
  by_cases hstatic : grain = 0
  · subst hstatic
    rw [if_pos rfl]
    exact singles_static_iff hlt hstep hsetUp hperforms
  · have hgrain : 0 < parforDynamic grain := parforDynamic_eq grain ▸ abs_pos.mpr hstatic
    rw [if_neg hstatic]
    exact singles_dynamic_iff hlt hstep hgrain hsetUp hperforms

end ParallelWatermark.FastFlow.ParallelFor
