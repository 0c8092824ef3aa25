import ParallelWatermark.Proof.FastFlow.ParallelFor.InitDataStatic

/-!
# What `setloop` sets up

For every loop with an index, every chunk and every number of workers the assertions hold, each of
the workers that will be started has a task, and the tasks of all of them together are the loop.
-/

namespace ParallelWatermark.FastFlow.ParallelFor

open Buffer

/-! ### The scheduler -/

/-- The tasks of entry `i`. -/
def Scheduler.work (s : Scheduler) (i : Nat) : List (Int × Int) := workOf s.step s.endchunk (s.data i)

/-- The tasks of all workers that will be started. -/
def Scheduler.works (s : Scheduler) : List (Int × Int) := (List.range s.nw).flatMap s.work

/-- A scheduler as `setloop` leaves it. -/
structure Ready (s : Scheduler) : Prop where
  step_pos : 0 < s.step
  chunk_pos : 0 < s.chunk
  nw_pos : 0 < s.nw
  nw_le : s.nw ≤ s.size
  cut : Cut s.step s.start s.stop s.works
  enough : ∀ i, ((s.work i).length : Int) ≤ (s.data i).ntask
  count : ∀ i < s.nw, 0 < (s.data i).ntask
  rest : ∀ i, s.nw ≤ i → (s.data i).ntask = 0
  total : s.totaltasks = ∑ i ∈ Finset.range s.nw, (s.data i).ntask
  static : s.staticScheduling = true → ∀ i < s.nw, (s.data i).ntask = 1
  dynamic : s.staticScheduling = false → ∀ i, ((s.work i).length : Int) = (s.data i).ntask

theorem TableOk.ready {start stop step : Int} {nw n : Nat} {init : Initialized} {staticScheduling : Bool}
    (hok : TableOk start stop step nw init n) (hstep : 0 < step)
    (hstatic : staticScheduling = true → ∀ i < n + 1, (init.data i).ntask = 1)
    (hdynamic : staticScheduling = false → Exact step init) :
    Ready ⟨init.data, nw, start, stop, step, init.chunk, init.totaltasks, n + 1, staticScheduling⟩ where
  step_pos := hstep
  chunk_pos := hok.chunk_pos
  nw_pos := Nat.succ_pos n
  nw_le := by
    have hrunning := hok.running
    simp only
    omega
  cut := hok.cut
  enough := hok.enough
  count := fun i hi => hok.count i (Nat.lt_succ_iff.mp hi)
  rest := hok.rest
  total := hok.total
  static := hstatic
  dynamic := hdynamic

/-- What `setloop` leaves for a loop of `⌈⌈(stop-start)/step⌉/chunk⌉` tasks. -/
structure SetUp (start stop step chunk : Int) (nw : Nat) (s : Scheduler) : Prop where
  ready : Ready s
  start_eq : s.start = start
  stop_eq : s.stop = stop
  step_eq : s.step = step
  size_eq : s.size = nw
  nw_eq : (s.nw : Int) = min s.totaltasks nw
  static_iff : s.staticScheduling = true ↔ chunk ≤ 0
  tasks : 0 < chunk → if Doubled (ceilDiv (ceilDiv (stop - start) step) chunk) nw
    then s.chunk = chunk * 2 ∧ s.totaltasks = ceilDiv (ceilDiv (stop - start) step) chunk - 1
    else s.chunk = chunk ∧ s.totaltasks = ceilDiv (ceilDiv (stop - start) step) chunk
  shares : chunk = 0 → s.totaltasks = nw ∧ s.chunk = if ceilDiv (stop - start) step % nw ≠ 0
    then ceilDiv (stop - start) step / nw + 1 else ceilDiv (stop - start) step / nw

section SetUp

variable {start stop step chunk : Int} {nw : Nat} (hsmall : Small start stop step chunk) (hstep : 0 < step)
  (hchunk : 0 ≤ chunk) (hnw : 0 < nw) (hmax : nw < 2 ^ 53) (hlt : start < stop)
include hsmall hstep hchunk hnw hmax hlt

omit hsmall hstep hchunk hlt in
/-- The number of workers that `setloop` goes on with. -/
theorem nw_of_tableOk {init : Initialized} {n : Nat} (hok : TableOk start stop step nw init n)
    (hfew : init.totaltasks < 2 ^ 53) : 1 ≤ init.totaltasks ∧
      (if Double.div init.totaltasks nw ≤ 1 ∨ init.totaltasks = 1 then init.totaltasks.toNat else nw) = n + 1 ∧
      ((n + 1 : Nat) : Int) = min init.totaltasks nw := by
  have hrunning := hok.running
  have hquotient := Double.div_le_iff (show 0 ≤ init.totaltasks by omega) hfew (show (0 : Int) < nw by omega)
    (by exact_mod_cast hmax) 1
  rw [Int.cast_one, one_mul] at hquotient
  simp only [hquotient]
  split_ifs <;> omega

/-- The assertions of `setloop` hold, and the scheduler is ready for the loop it was given. -/
theorem setloop_setUp : ∃ s, setloop start stop step chunk nw = some s ∧ SetUp start stop step chunk nw s := by
  rcases hchunk.eq_or_lt with rfl | hdynamic
  · obtain ⟨init, hinit, hok, htotal, hones, hshare⟩ := initDataEqually_ok hsmall hstep hnw hlt
    obtain ⟨hsome, hrun, hmin⟩ := nw_of_tableOk hnw hmax hok (by rw [htotal]; exact_mod_cast hmax)
    refine ⟨_, ?_, ⟨hok.ready hstep (fun _ i hi => hones i (by omega)) fun h : true = false => absurd h (by decide),
      rfl, rfl, rfl, rfl, hmin, by simp, fun h => absurd h (by decide), fun _ => ⟨htotal, hshare⟩⟩⟩
    rw [setloop, if_pos (Int.le_refl 0), initDataStatic, if_pos rfl, hinit, Option.bind_some, if_pos hsome, hrun,
      decide_eq_true (Int.le_refl 0)]
  · obtain ⟨init, n, hinit, ⟨hok, hexact⟩, htasks⟩ := initData_ok hsmall hstep hdynamic hnw hlt
    have hcount := ceilDiv_le (show 0 ≤ stop - start by omega) hstep
    have hfewer := ceilDiv_le (ceilDiv_nonneg (show 0 ≤ stop - start by omega) hstep) hdynamic
    have hlength := hsmall.length_lt
    obtain ⟨hsome, hrun, hmin⟩ := nw_of_tableOk hnw hmax hok (by split_ifs at htasks <;> omega)
    have hnot : ¬ chunk ≤ 0 := by omega
    refine ⟨_, ?_, ⟨hok.ready hstep (fun h : false = true => absurd h (by decide)) fun _ => hexact,
      rfl, rfl, rfl, rfl, hmin, by simp [hdynamic], fun _ => htasks, fun h => absurd h hdynamic.ne'⟩⟩
    rw [setloop, if_neg hnot, hinit, Option.bind_some, if_pos hsome, hrun, decide_eq_false hnot]

/-- What a call of `setloop` has set up. -/
theorem setUp_of_setloop {s : Scheduler} (hset : setloop start stop step chunk nw = some s) :
    SetUp start stop step chunk nw s := by
  obtain ⟨s', hset', hsetUp⟩ := setloop_setUp hsmall hstep hchunk hnw hmax hlt
  rw [hset] at hset'
  obtain rfl := Option.some.inj hset'
  exact hsetUp

end SetUp

/-! ### The first tasks -/

/-- The call that is made for a task, if its range is not empty. -/
def ForallTask.calls (task : ForallTask) : List (Int × Int) :=
  if task.start < task.stop then [(task.start, task.stop)] else []

section Tasks

variable {s : Scheduler} (hready : Ready s)
include hready

theorem Ready.endchunk_pos : 0 < s.endchunk := by
  have := mul_nonneg (show 0 ≤ s.chunk - 1 by have := hready.chunk_pos; omega) hready.step_pos.le
  rw [Scheduler.endchunk]
  omega

theorem Ready.nextOf_lt_iff (d : DataPair) : (s.nextOf d).start < (s.nextOf d).stop ↔ d.task.start < d.task.stop := by
  have := hready.endchunk_pos
  simp only [Scheduler.nextOf]
  omega

/-- The next task of an entry and the tasks that it leaves. -/
theorem Ready.workOf_eq (d : DataPair) :
    workOf s.step s.endchunk d = (s.nextOf d).calls ++ workOf s.step s.endchunk (s.advance d) := by
  have hwidth := hready.endchunk_pos
  have hstep := hready.step_pos
  rw [ForallTask.calls]
  by_cases hlt : d.task.start < d.task.stop
  · rw [if_pos ((hready.nextOf_lt_iff d).mpr hlt), workOf, pieces_of_lt hstep hwidth hlt]
    rfl
  · rw [if_neg (fun h => hlt ((hready.nextOf_lt_iff d).mp h)), workOf_of_ge (by omega), workOf_of_ge]
    · rfl
    · simp only [Scheduler.advance, Scheduler.nextOf]
      omega

theorem Ready.totaltasks_eq (hdynamic : s.staticScheduling = false) : s.totaltasks = s.works.length := by
  rw [hready.total, Scheduler.works]
  have hsum : ∀ n, ∑ i ∈ Finset.range n, (s.data i).ntask = ((List.range n).flatMap s.work).length := by
    intro n
    induction n with
    | zero => rfl
    | succ n ih =>
      rw [Finset.sum_range_succ, ih, List.range_succ, List.flatMap_append, List.length_append, List.flatMap_singleton,
        ← hready.dynamic hdynamic n]
      push_cast
      rfl
  exact hsum s.nw

theorem Ready.length_calls {d : DataPair} (hsome : workOf s.step s.endchunk (s.advance d) ≠ []) :
    (s.nextOf d).calls.length = 1 := by
  rw [ForallTask.calls]
  split_ifs with hlt
  · rfl
  · refine absurd ?_ hsome
    have hnil : workOf s.step s.endchunk d = [] :=
      workOf_of_ge (not_lt.mp fun h => hlt ((hready.nextOf_lt_iff d).mpr h))
    rw [hready.workOf_eq] at hnil
    exact (List.append_eq_nil_iff.mp hnil).2

end Tasks

namespace Scheduler

variable (s : Scheduler)

@[simp] theorem sentOf_ntask (d : DataPair) : (s.sentOf d).ntask = d.ntask - 1 := rfl

@[simp] theorem workOf_sentOf (step width : Int) (d : DataPair) :
    workOf step width (s.sentOf d) = workOf step width (s.advance d) := rfl

theorem foldl_sendOne {m : Nat} {f : Sending} (hsome : ∀ i < m, 0 < (f.data i).ntask) :
    (List.range m).foldl s.sendOne f =
      ⟨fun i => if i < m then s.sentOf (f.data i) else f.data i,
        f.sent ++ (List.range m).map (fun i => (i, s.nextOf (f.data i))), f.skip1⟩ := by
  induction m with
  | zero => simp
  | succ m ih =>
    rw [List.range_succ, List.foldl_append, ih fun i hi => hsome i (by omega), List.foldl_cons, List.foldl_nil, sendOne]
    simp only [Nat.lt_irrefl, if_false, if_pos (hsome m (Nat.lt_succ_self m)), List.map_append, List.map_cons,
      List.map_nil, List.append_assoc]
    congr 1
    funext i
    by_cases him : i = m
    · subst him
      simp [sentOf]
    · rw [Function.update_of_ne him]
      by_cases hi : i < m
      · rw [if_pos hi, if_pos (by omega)]
      · rw [if_neg hi, if_neg (by omega)]

end Scheduler

section SendTask

variable {s : Scheduler} (hready : Ready s)
include hready

theorem Ready.sendTask_true : s.sendTask true =
    ⟨fun i => if i < s.nw then s.sentOf (s.data i) else s.data i,
      (List.range s.nw).map fun i => (i, s.nextOf (s.data i)), false⟩ := by
  rw [Scheduler.sendTask, s.foldl_sendOne hready.count, if_neg (by simp)]
  rfl

theorem Ready.lookup_sendTask_true (w : Fin s.nw) :
    (s.sendTask true).sent.lookup w.val = some (s.nextOf (s.data w)) := by
  rw [hready.sendTask_true]
  exact List.lookup_graph (fun i => s.nextOf (s.data i)) (List.mem_range.mpr w.isLt)

end SendTask

/-! ### The partition -/

section Partition

variable {start stop step chunk : Int} {nw : Nat}

@[simp] theorem lrintCeil_zero (b : Int) : lrintCeil 0 b = 0 := by
  simp [lrintCeil]

theorem foldl_fillEntry_zero (n : Nat) :
    (List.range n).foldl (fillEntry stop step chunk 0 0) ⟨Table.empty, start, 0⟩ = ⟨Table.empty, start, 0⟩ := by
  induction n with
  | zero => rfl
  | succ n ih => rw [List.range_succ, List.foldl_append, ih, List.foldl_cons, List.foldl_nil, fillEntry, if_neg (by simp)]

/-- A loop without indexes is refused, unless it is divided among the workers. -/
theorem setloop_empty (step : Int) (hnw : 0 < nw) : setloop start start step chunk nw = none ↔ chunk ≠ 0 := by
  rcases lt_trichotomy chunk 0 with hneg | rfl | hpos
  · refine iff_of_true ?_ hneg.ne
    rw [setloop, if_pos hneg.le, initDataStatic, if_neg hneg.ne, Option.bind_some, if_neg]
    simp [initDataRoundRobin]
  · refine iff_of_false ?_ (by decide)
    have hsome : (1 : Int) ≤ nw := by omega
    simp [setloop, initDataStatic, initDataEqually, hnw.ne', hsome]
  · refine iff_of_true ?_ hpos.ne'
    have hinit : initData nw start start step chunk = some ⟨Table.empty, chunk, 0⟩ := by
      simp [initData, foldl_fillEntry_zero, hnw.ne']
    rw [setloop, if_neg (not_le.mpr hpos), hinit, Option.bind_some, if_neg (by simp)]

/-- A table of first tasks has one for some worker. -/
theorem setloop_roundRobin (hsmall : Small start stop step chunk) (hstep : 0 < step) (hchunk : chunk < 0) (hnw : 0 < nw)
    (hlt : start < stop) : setloop start stop step chunk nw ≠ none := by
  have hindexes := ceilDiv_pos (show 0 < stop - start by omega) hstep
  have htasks := ceilDiv_pos hindexes (show 0 < -chunk by omega)
  have hcount := ceilDiv_le (show 0 ≤ stop - start by omega) hstep
  have hfewer := ceilDiv_le hindexes.le (show 0 < -chunk by omega)
  have hlength := hsmall.length_lt
  have hsome : 1 ≤ (initDataRoundRobin nw start stop step chunk).totaltasks := by
    simp only [initDataRoundRobin, lrintCeil_length hsmall hstep hlt.le,
      lrintCeil_tasks hsmall hstep hlt.le (show 0 < -chunk by omega) (abs_of_neg hchunk).symm]
    rw [Int.emod_eq_of_lt htasks.le (by omega)]
    omega
  rw [setloop, if_pos hchunk.le, initDataStatic, if_neg hchunk.ne, Option.bind_some, if_pos hsome]
  simp

section Sized

variable (hsmall : Small start stop step chunk) (hstep : 0 < step) (hnw : 0 < nw) (hmax : nw < 2 ^ 53)
include hsmall hstep hnw hmax

theorem setloop_eq_none_iff (hle : start ≤ stop) :
    setloop start stop step chunk nw = none ↔ start = stop ∧ chunk ≠ 0 := by
  rcases hle.eq_or_lt with rfl | hlt
  · rw [setloop_empty step hnw]
    simp
  · refine iff_of_false ?_ fun h => hlt.ne h.1
    by_cases hchunk : chunk < 0
    · exact setloop_roundRobin hsmall hstep hchunk hnw hlt
    · obtain ⟨s, hset, -⟩ := setloop_setUp hsmall hstep (not_lt.mp hchunk) hnw hmax hlt
      simp [hset]

/-- `setloop` fails for a loop without indexes that is not divided among the workers, and for no other with
`start ≤ stop`. Where the chunk is not negative the entries of the workers that will be started hold the whole
loop, in order and each index once, and every such worker has a task; the other entries are empty. Under
dynamic scheduling the counts are the numbers of tasks. -/
theorem setloop_partitions (hle : start ≤ stop) :
    (setloop start stop step chunk nw = none ↔ start = stop ∧ chunk ≠ 0) ∧
      ∀ s, 0 ≤ chunk → start < stop → setloop start stop step chunk nw = some s →
        s.works.flatMap (fun call => strided step call.1 call.2) = strided step start stop ∧
        (s.nw : Int) = min s.totaltasks nw ∧
        (∀ i, 0 < (s.data i).ntask ↔ i < s.nw) ∧
        (∀ i, s.nw ≤ i → s.work i = []) ∧
        (0 < chunk → s.totaltasks = s.works.length ∧ ∀ i, ((s.work i).length : Int) = (s.data i).ntask) := by
  refine ⟨setloop_eq_none_iff hsmall hstep hnw hmax hle, fun s hchunk hlt hset => ?_⟩
  have hsetUp := setUp_of_setloop hsmall hstep hchunk hnw hmax hlt hset
  have hready := hsetUp.ready
  have hcut := hready.cut
  rw [hsetUp.step_eq, hsetUp.start_eq, hsetUp.stop_eq] at hcut
  refine ⟨hcut.flatMap_strided hstep, hsetUp.nw_eq, fun i => ⟨fun hsome => ?_, hready.count i⟩, fun i hi => ?_,
    fun hdynamic => ?_⟩
  · by_contra hi
    rw [hready.rest i (by omega)] at hsome
    omega
  · have henough := hready.enough i
    rw [hready.rest i hi] at henough
    exact List.eq_nil_of_length_eq_zero (by omega)
  · have hnot : s.staticScheduling = false := by
      by_contra hstatic
      have := hsetUp.static_iff.mp (by simpa using hstatic)
      omega
    exact ⟨hready.totaltasks_eq hnot, hready.dynamic hnot⟩

end Sized

/-- Three tasks for two workers are made two. -/
theorem setloop_partitions_inhabited : ∃ s, setloop 0 5 2 1 2 = some s ∧
    s.works.flatMap (fun call => strided 2 call.1 call.2) = [0, 2, 4] := by
  have hpartitions := @setloop_partitions 0 5 2 1 2 (by constructor <;> decide) (by decide) (by decide) (by decide) (by decide)
  cases hset : setloop 0 5 2 1 2 with
  | none => exact absurd (hpartitions.1.mp hset).1 (by decide)
  | some s => exact ⟨s, rfl, (hpartitions.2 s (by decide) (by decide) hset).1.trans (by decide)⟩

end Partition

end ParallelWatermark.FastFlow.ParallelFor
