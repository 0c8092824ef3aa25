import Mathlib.Algebra.BigOperators.Intervals
import Mathlib.Data.Int.ConditionallyCompleteOrder
import ParallelWatermark.Proof.FastFlow.ParallelFor.Table

/-!
# What `init_data` leaves

Dynamic scheduling. Each of the workers that will be started has a task, the tasks of all of them together
are the loop, and the counts are the numbers of tasks.
-/

namespace ParallelWatermark.FastFlow.ParallelFor

open Buffer

section Given

variable {ntxw r : Int}

theorem given_zero (ntxw r : Int) : given ntxw r 0 = 0 := by
  simp only [given]
  split_ifs <;> simp
  omega

theorem given_strictMono (hntxw : 0 < ntxw) : StrictMono (given ntxw r) := by
  refine strictMono_nat_of_lt_succ fun i => ?_
  have hsucc := given_succ ntxw r i
  split_ifs at hsucc <;> omega

end Given

section InitData

variable {start stop step chunk ntxw r tasks : Int} {m n : Nat} {f : Filling}

theorem sum_ntask_of_filled (hfilled : Filled start stop step chunk ntxw r tasks m f) (hn : n ≤ m)
    (hopen : ∀ i < n, given ntxw r i < tasks) : ∑ i ∈ Finset.range n, (f.data i).ntask = given ntxw r n := by
  have hterm : ∀ i ∈ Finset.range n, (f.data i).ntask = given ntxw r (i + 1) - given ntxw r i := by
    intro i hi
    have hin := Finset.mem_range.mp hi
    rw [hfilled.entry_eq i (by omega) (hopen i hin)]
  rw [Finset.sum_congr rfl hterm, Finset.sum_range_sub, given_zero, sub_zero]

theorem sum_ntask_update (data : Table) (n : Nat) (d : DataPair) :
    ∑ i ∈ Finset.range (n + 1), (Function.update data n d i).ntask =
      ∑ i ∈ Finset.range n, (data i).ntask + d.ntask := by
  rw [Finset.sum_range_succ, Function.update_self]
  congr 1
  refine Finset.sum_congr rfl fun i hi => ?_
  rw [Function.update_of_ne (Finset.mem_range.mp hi).ne]

/-- Where the entries take all tasks, they cut the loop. -/
theorem entries_of_filled (hfilled : Filled start stop step chunk ntxw r tasks m f) (hstep : 0 < step)
    (hchunk : 0 < chunk) (hntxw : 0 < ntxw) (hbefore : ∀ k < tasks, start + k * chunk * step < stop)
    (henough : stop ≤ start + tasks * chunk * step) (hn : n < m) (hall : given ntxw r (n + 1) = tasks) :
    Entries step chunk start stop f.data n := by
  have hopen : ∀ i ≤ n, given ntxw r i < tasks := fun i hi => hall ▸ given_strictMono hntxw (by omega)
  refine ⟨fun i hi => ?_, ?_, fun i hi => ?_, ?_, fun i hi => ?_⟩
  · exact entryOk_of_filled hfilled hstep hntxw hbefore hchunk (by omega) (hopen i hi)
      (hall ▸ (given_strictMono hntxw).monotone (show i + 1 ≤ n + 1 by omega))
  · rw [hfilled.entry_eq 0 (by omega) (hopen 0 (by omega)), given_zero]
    simp
  · exact link_of_filled hfilled hstep hntxw hbefore (by omega) (hopen (i + 1) (by omega))
  · rw [hfilled.entry_eq n hn (hopen n (Nat.le_refl n)), hall]
    rcases le_total (start + tasks * chunk * step - step + 1) stop with hle | hle
    · refine Or.inr ?_
      simp only [min_eq_left hle]
      exact ⟨⟨(tasks - given ntxw r n) * chunk - 1, by ring⟩, by omega⟩
    · exact Or.inl (min_eq_right hle)
  · exact hfilled.rest_eq i (Or.inr (hall ▸ (given_strictMono hntxw).monotone (show n + 1 ≤ i by omega)))

/-- Where a last entry has been given the rest of the loop, the entries cut it too. -/
theorem entries_of_update (hfilled : Filled start stop step chunk ntxw r tasks (n + 1) f) (hstep : 0 < step)
    (hntxw : 0 < ntxw) (hbefore : ∀ k < tasks, start + k * chunk * step < stop)
    (hopen : ∀ i ≤ n, given ntxw r i < tasks) {chunk' : Int} {d : DataPair}
    (hok : ∀ i < n, EntryOk step chunk' stop (f.data i)) (hlast : EntryOk step chunk' stop d)
    (hstart : d.task.start = (f.data n).task.start) (hstop : d.task.stop = stop) :
    Entries step chunk' start stop (Function.update f.data n d) n := by
  have hsame : ∀ i < n, Function.update f.data n d i = f.data i := fun i hi => Function.update_of_ne (by omega) _ _
  have hstarts : ∀ i ≤ n, (Function.update f.data n d i).task.start = (f.data i).task.start := by
    intro i hi
    by_cases hin : i = n
    · subst hin
      rw [Function.update_self, hstart]
    · rw [hsame i (by omega)]
  refine ⟨fun i hi => ?_, ?_, fun i hi => ?_, Or.inl ?_, fun i hi => ?_⟩
  · by_cases hin : i = n
    · subst hin
      rwa [Function.update_self]
    · rw [hsame i (by omega)]
      exact hok i (by omega)
  · rw [hstarts 0 (by omega), hfilled.entry_eq 0 (by omega) (hopen 0 (by omega)), given_zero]
    simp
  · rw [hsame i hi, hstarts (i + 1) (by omega)]
    exact link_of_filled hfilled hstep hntxw hbefore (by omega) (hopen (i + 1) (by omega))
  · rw [Function.update_self, hstop]
  · rw [Function.update_of_ne (by omega)]
    exact hfilled.rest_eq i (Or.inl (by omega))

theorem EntryOk.double {hi : Int} {d : DataPair} (hok : EntryOk step chunk hi d) (hone : d.ntask = 1)
    (hwide : 0 ≤ chunk * step) : EntryOk step (chunk * 2) hi d := by
  obtain ⟨hcount, hmore, henough, hle, hlast⟩ := hok
  rw [hone] at hmore henough
  refine ⟨hcount, ?_, ?_, hle, hlast⟩ <;> rw [hone]
  · simpa using hmore
  · have : 1 * (chunk * 2) * step = 1 * chunk * step + chunk * step := by ring
    omega

/-- What `init_data` and `init_data_static` leave: the entries for the workers that will be started cut
the loop, and their counts are the tasks. -/
structure TableOk (start stop step : Int) (nw : Nat) (init : Initialized) (n : Nat) : Prop where
  chunk_pos : 0 < init.chunk
  cut : Cut step start stop
    ((List.range (n + 1)).flatMap fun i => workOf step ((init.chunk - 1) * step + 1) (init.data i))
  enough : ∀ i, ((workOf step ((init.chunk - 1) * step + 1) (init.data i)).length : Int) ≤ (init.data i).ntask
  count : ∀ i ≤ n, 0 < (init.data i).ntask
  rest : ∀ i, n < i → (init.data i).ntask = 0
  total : init.totaltasks = ∑ i ∈ Finset.range (n + 1), (init.data i).ntask
  running : init.totaltasks = n + 1 ∧ n + 1 ≤ nw ∨ n + 1 = nw ∧ (nw : Int) < init.totaltasks

theorem Entries.tableOk {nw : Nat} {data : Table} {total : Int} (hstep : 0 < step) (hchunk : 0 < chunk)
    (hentries : Entries step chunk start stop data n) (htotal : total = ∑ i ∈ Finset.range (n + 1), (data i).ntask)
    (hrunning : total = n + 1 ∧ n + 1 ≤ nw ∨ n + 1 = nw ∧ (nw : Int) < total) :
    TableOk start stop step nw ⟨data, chunk, total⟩ n :=
  ⟨hchunk, hentries.cut hstep hchunk, fun i => (hentries.length_workOf hstep hchunk i).le,
    fun i hi => (hentries.ok i hi).count, fun i hi => by simp [hentries.rest i hi], htotal, hrunning⟩

theorem before_stop (hstep : 0 < step) (hchunk : 0 < chunk) {k : Int}
    (hk : k < ceilDiv (ceilDiv (stop - start) step) chunk) : start + k * chunk * step < stop := by
  have hindexes := (ceilDiv_spec (stop - start) hstep).1
  have htasks := (ceilDiv_spec (ceilDiv (stop - start) step) hchunk).1
  have hle : k * chunk ≤ (ceilDiv (ceilDiv (stop - start) step) chunk - 1) * chunk :=
    mul_le_mul_of_nonneg_right (by omega) hchunk.le
  have : k * chunk * step ≤ (ceilDiv (stop - start) step - 1) * step :=
    mul_le_mul_of_nonneg_right (by omega) hstep.le
  omega

theorem stop_le (hstep : 0 < step) (hchunk : 0 < chunk) :
    stop ≤ start + ceilDiv (ceilDiv (stop - start) step) chunk * chunk * step := by
  have hindexes := (ceilDiv_spec (stop - start) hstep).2
  have htasks := (ceilDiv_spec (ceilDiv (stop - start) step) hchunk).2
  have := mul_le_mul_of_nonneg_right htasks hstep.le
  omega

/-- The counts are the numbers of tasks. -/
def Exact (step : Int) (init : Initialized) : Prop :=
  ∀ i, ((workOf step ((init.chunk - 1) * step + 1) (init.data i)).length : Int) = (init.data i).ntask

theorem le_given (hntxw : 0 < ntxw) (i : Nat) : (i : Int) ≤ given ntxw r i := by
  have hmul : (i : Int) * 1 ≤ i * ntxw := mul_le_mul_of_nonneg_left (by omega) (Int.natCast_nonneg i)
  simp only [given]
  split_ifs <;> omega

section Fill

variable (hstep : 0 < step) (hchunk : 0 < chunk) (hntxw : 0 < ntxw)
  (hbefore : ∀ k < tasks, start + k * chunk * step < stop) (henough : stop ≤ start + tasks * chunk * step)
include hstep hchunk hntxw hbefore henough

/-- The entries up to the last that has tasks have them all. -/
theorem tableOk_of_all {nw : Nat} (hfilled : Filled start stop step chunk ntxw r tasks nw f) (hn : n < nw)
    (hall : given ntxw r (n + 1) = tasks) (hfull : tasks = n + 1 ∨ nw = n + 1) :
    TableOk start stop step nw ⟨f.data, chunk, tasks⟩ n ∧ Exact step ⟨f.data, chunk, tasks⟩ := by
  have hentries := entries_of_filled hfilled hstep hchunk hntxw hbefore henough hn hall
  refine ⟨hentries.tableOk hstep hchunk ?_ ?_, hentries.length_workOf hstep hchunk⟩
  · rw [sum_ntask_of_filled hfilled hn fun i hi => hall ▸ given_strictMono hntxw hi, hall]
  · have hle := @le_given ntxw r hntxw (n + 1)
    omega

/-- The entries before the last one is given the task that is left over. -/
structure Spare (start stop step chunk ntxw tasks : Int) (n : Nat) (f : Filling) : Prop where
  given_lt : ∀ i ≤ n, given ntxw 1 i < tasks
  ok : ∀ i ≤ n, EntryOk step chunk stop (f.data i)
  count : ∀ i ≤ n, (f.data i).ntask = ntxw
  start_eq : (f.data n).task.start = start + given ntxw 1 n * chunk * step
  sum_eq : ∑ i ∈ Finset.range n, (f.data i).ntask = given ntxw 1 n
  tasks_eq : tasks = given ntxw 1 n + ntxw + 1

section Spare

variable (hfilled : Filled start stop step chunk ntxw 1 tasks (n + 1) f) (hspare : given ntxw 1 (n + 1) = tasks - 1)
include hfilled hspare

omit henough in
theorem spare_of_filled : Spare start stop step chunk ntxw tasks n f := by
  have hopen : ∀ i ≤ n, given ntxw 1 i < tasks := by
    intro i hi
    have := @given_strictMono ntxw 1 hntxw i (n + 1) (by omega)
    omega
  have hsucc : ∀ i, given ntxw 1 (i + 1) = given ntxw 1 i + ntxw := fun i => by simp [given_succ]
  refine ⟨hopen, fun i hi => ?_, fun i hi => ?_, ?_, ?_, ?_⟩
  · exact entryOk_of_filled hfilled hstep hntxw hbefore hchunk (by omega) (hopen i hi)
      (((given_strictMono hntxw).monotone (show i + 1 ≤ n + 1 by omega)).trans (by omega))
  · rw [hfilled.entry_eq i (by omega) (hopen i hi), hsucc]
    simp
  · rw [hfilled.entry_eq n (Nat.lt_succ_self n) (hopen n (Nat.le_refl n))]
  · exact sum_ntask_of_filled hfilled (Nat.le_succ n) fun i hi => hopen i (by omega)
  · rw [hsucc] at hspare
    omega

/-- The last worker has several tasks and gets the one left over too. -/
theorem tableOk_of_spare (hmany : 1 < ntxw) {init : Initialized}
    (hinit : init = ⟨Function.update f.data n ⟨(f.data n).ntask + 1, ⟨(f.data n).task.start, stop⟩⟩, chunk, tasks⟩) :
    TableOk start stop step (n + 1) init n ∧ Exact step init := by
  have hentry := spare_of_filled hstep hchunk hntxw hbefore hfilled hspare
  have hcount := hentry.count n (Nat.le_refl n)
  have htasks := hentry.tasks_eq
  subst hinit
  have hok : EntryOk step chunk stop ⟨(f.data n).ntask + 1, ⟨(f.data n).task.start, stop⟩⟩ := by
    have hmore := hbefore (given ntxw 1 n + ntxw) (by omega)
    rw [htasks] at henough
    rw [hcount, hentry.start_eq]
    refine ⟨by simp only; omega, ?_, ?_, Int.le_refl _, Or.inr rfl⟩ <;> simp only <;> linarith
  have hentries := entries_of_update hfilled hstep hntxw hbefore hentry.given_lt (fun i hi => hentry.ok i hi.le) hok rfl rfl
  refine ⟨hentries.tableOk hstep hchunk ?_ (Or.inr ⟨rfl, ?_⟩), hentries.length_workOf hstep hchunk⟩
  · rw [sum_ntask_update, hentry.sum_eq, hcount]
    simp only
    omega
  · have hle := @le_given ntxw 1 hntxw n
    push_cast
    omega

/-- The workers have one task each, and all tasks are made twice as large. -/
theorem tableOk_of_doubled (hone : ntxw = 1) {init : Initialized}
    (hinit : init = ⟨Function.update f.data n ⟨(f.data n).ntask, ⟨(f.data n).task.start, stop⟩⟩, chunk * 2, tasks - 1⟩) :
    TableOk start stop step (n + 1) init n ∧ Exact step init := by
  subst hone
  have hentry := spare_of_filled hstep hchunk hntxw hbefore hfilled hspare
  have hcount := hentry.count n (Nat.le_refl n)
  have htasks := hentry.tasks_eq
  subst hinit
  have hwide : 0 ≤ chunk * step := mul_nonneg hchunk.le hstep.le
  have hdouble : 0 < chunk * 2 := by omega
  have hok : EntryOk step (chunk * 2) stop ⟨(f.data n).ntask, ⟨(f.data n).task.start, stop⟩⟩ := by
    have hmore := hbefore (given 1 1 n) (by omega)
    rw [htasks] at henough
    rw [hcount, hentry.start_eq]
    refine ⟨Int.one_pos, ?_, ?_, Int.le_refl _, Or.inr rfl⟩ <;> simp only <;> linarith
  have hentries := entries_of_update hfilled hstep hntxw hbefore hentry.given_lt
    (fun i hi => (hentry.ok i hi.le).double (hentry.count i hi.le) hwide) hok rfl rfl
  have hgiven : given 1 1 n = n := by simp [given]
  refine ⟨hentries.tableOk hstep hdouble ?_ (Or.inl ⟨by omega, Nat.le_refl _⟩), hentries.length_workOf hstep hdouble⟩
  rw [sum_ntask_update, hentry.sum_eq, hcount]
  omega

end Spare

end Fill

/-- The tasks are twice as large as they should be where one is left over for workers with one task each. -/
def Doubled (tasks : Int) (nw : Nat) : Prop := tasks = nw + 1 ∧ 1 < nw

instance (tasks : Int) (nw : Nat) : Decidable (Doubled tasks nw) := inferInstanceAs (Decidable (_ ∧ _))

/-- What `init_data` leaves for a loop of so many tasks. -/
def Sets (start stop step chunk tasks : Int) (nw : Nat) (result : Option Initialized) : Prop :=
  ∃ init n, result = some init ∧ (TableOk start stop step nw init n ∧ Exact step init) ∧
    if Doubled tasks nw then init.chunk = chunk * 2 ∧ init.totaltasks = tasks - 1
    else init.chunk = chunk ∧ init.totaltasks = tasks

section Cases

variable {nw : Nat} (htasks : lrintCeil (lrintCeil (stop - start) step) chunk = tasks) (hstep : 0 < step)
  (hchunk : 0 < chunk) (hpos : 0 < tasks) (hbefore : ∀ k < tasks, start + k * chunk * step < stop)
  (henough : stop ≤ start + tasks * chunk * step)
include htasks hstep hchunk hpos hbefore henough

/-- One task for each of the first workers. -/
theorem initData_of_few (hfew : tasks < nw) : Sets start stop step chunk tasks nw (initData nw start stop step chunk) := by
  have hquotient : tasks / nw = 0 := Int.ediv_eq_zero_of_lt hpos.le hfew
  have hrest : tasks % nw = tasks := Int.emod_eq_of_lt hpos.le hfew
  have hgiven : ∀ i, given 1 0 i = i := fun i => by simp [given]
  obtain ⟨n, hn⟩ := Int.eq_ofNat_of_zero_le (show 0 ≤ tasks - 1 by omega)
  have hfilled := filled hstep (show (0 : Int) ≤ 1 by decide) hpos.le hbefore nw
    (r := 0) (fun i _ hi => by rw [hgiven] at hi ⊢; push_cast; omega)
  have hdone := hfilled.left_eq
  rw [hgiven, max_eq_right (by omega)] at hdone
  simp only [initData, htasks, hquotient, hrest, true_and, if_pos (show 1 ≤ tasks from hpos)]
  rw [if_neg (show nw ≠ 0 by omega), if_pos hdone]
  refine ⟨_, n, rfl, tableOk_of_all hstep hchunk (by decide) hbefore henough hfilled (by omega)
    (by rw [hgiven]; push_cast; omega) (Or.inl (by omega)), ?_⟩
  rw [if_neg fun hdoubled : Doubled tasks nw => by have := hdoubled.1; omega]
  exact ⟨rfl, rfl⟩

variable {n : Nat} {q : Int} (hq : 0 < q)
include hq

/-- One task is left over. -/
theorem initData_of_spare (hspare : tasks = (n + 1 : Nat) * q + 1) (hmany : 0 < n) :
    Sets start stop step chunk tasks (n + 1) (initData (n + 1) start stop step chunk) := by
  have hnw : (0 : Int) < (n + 1 : Nat) := by omega
  have hquotient : tasks / (n + 1 : Nat) = q := by
    rw [hspare, Int.add_comm, Int.add_mul_ediv_left _ _ hnw.ne', Int.ediv_eq_zero_of_lt (by decide) (by omega), zero_add]
  have hrest : tasks % (n + 1 : Nat) = 1 := by
    rw [hspare, Int.add_comm, Int.add_mul_emod_self_left, Int.emod_eq_of_lt (by decide) (by omega)]
  have hgiven : given q 1 (n + 1) = tasks - 1 := by
    rw [given, if_neg (by decide), min_eq_right (by omega)]
    omega
  have hfilled := filled hstep hq.le hpos.le hbefore (n + 1) (r := 1) fun i hi _ =>
    ((given_strictMono hq).monotone (show i + 1 ≤ n + 1 by omega)).trans (by omega)
  have hleft := hfilled.left_eq
  rw [hgiven, show tasks - (tasks - 1) = 1 by ring, max_eq_left (by decide)] at hleft
  simp only [initData, htasks, hquotient, hrest, if_neg (show ¬ (q = 0 ∧ 1 ≤ (1 : Int)) from fun hfew => hq.ne' hfew.1)]
  rw [if_neg (Nat.succ_ne_zero n), hleft, if_neg (by decide), if_neg (by decide), Nat.add_sub_cancel]
  by_cases hmore : 1 < q
  · have := mul_le_mul_of_nonneg_left (show 2 ≤ q by omega) hnw.le
    rw [if_pos hmore]
    refine ⟨_, n, rfl, tableOk_of_spare hstep hchunk hq hbefore henough hfilled hgiven hmore rfl, ?_⟩
    rw [if_neg fun hdoubled : Doubled tasks (n + 1) => by have := hdoubled.1; omega]
    exact ⟨rfl, rfl⟩
  · have hone : q = 1 := by omega
    rw [if_neg hmore]
    refine ⟨_, n, rfl, tableOk_of_doubled hstep hchunk hq hbefore henough hfilled hgiven hone rfl, ?_⟩
    subst hone
    rw [if_pos (show Doubled tasks (n + 1) from ⟨by omega, by omega⟩)]
    exact ⟨rfl, rfl⟩

/-- The tasks are divided among the workers, the first of whom may have one more. -/
theorem initData_of_divided {r : Int} (hdivided : tasks = (n + 1 : Nat) * q + r) (hr : 0 ≤ r) (hless : r < (n + 1 : Nat))
    (hone : r ≠ 1) : Sets start stop step chunk tasks (n + 1) (initData (n + 1) start stop step chunk) := by
  have hnw : (0 : Int) < (n + 1 : Nat) := by omega
  have hquotient : tasks / (n + 1 : Nat) = q := by
    rw [hdivided, Int.add_comm, Int.add_mul_ediv_left _ _ hnw.ne', Int.ediv_eq_zero_of_lt hr hless, zero_add]
  have hrest : tasks % (n + 1 : Nat) = r := by
    rw [hdivided, Int.add_comm, Int.add_mul_emod_self_left, Int.emod_eq_of_lt hr hless]
  have hgiven : given q r (n + 1) = tasks := by
    simp only [given, hdivided]
    split_ifs <;> omega
  have hfilled := filled hstep hq.le hpos.le hbefore (n + 1) (r := r) fun i hi _ =>
    ((given_strictMono hq).monotone (show i + 1 ≤ n + 1 by omega)).trans hgiven.le
  have hleft := hfilled.left_eq
  rw [hgiven, sub_self, max_self] at hleft
  simp only [initData, htasks, hquotient, hrest, if_neg (show ¬ (q = 0 ∧ 1 ≤ r) from fun hfew => hq.ne' hfew.1)]
  rw [if_neg (Nat.succ_ne_zero n), if_pos hleft]
  refine ⟨_, n, rfl, tableOk_of_all hstep hchunk hq hbefore henough hfilled (Nat.lt_succ_self n) hgiven (Or.inr rfl), ?_⟩
  rw [if_neg fun hdoubled : Doubled tasks (n + 1) => ?_]
  · exact ⟨rfl, rfl⟩
  · obtain ⟨hcount, hmany⟩ := hdoubled
    rcases (show 1 ≤ q by omega).eq_or_lt with rfl | hmore
    · omega
    · have := mul_le_mul_of_nonneg_left (show 2 ≤ q by omega) hnw.le
      omega

end Cases

/-- The assertion of `init_data` holds. -/
theorem initData_ok {nw : Nat} (hsmall : Small start stop step chunk) (hstep : 0 < step) (hchunk : 0 < chunk) (hnw : 0 < nw)
    (hlt : start < stop) : Sets start stop step chunk (ceilDiv (ceilDiv (stop - start) step) chunk) nw
      (initData nw start stop step chunk) := by
  have htasks : lrintCeil (lrintCeil (stop - start) step) chunk = ceilDiv (ceilDiv (stop - start) step) chunk := by
    rw [lrintCeil_length hsmall hstep hlt.le, lrintCeil_tasks hsmall hstep hlt.le hchunk (abs_of_pos hchunk).symm]
  have hpos := ceilDiv_pos (ceilDiv_pos (show 0 < stop - start by omega) hstep) hchunk
  have hbefore := fun k (hk : k < ceilDiv (ceilDiv (stop - start) step) chunk) => before_stop hstep hchunk hk
  have henough := @stop_le start stop step chunk hstep hchunk
  generalize ceilDiv (ceilDiv (stop - start) step) chunk = tasks at *
  by_cases hfew : tasks < nw
  · exact initData_of_few htasks hstep hchunk hpos hbefore henough hfew
  · obtain ⟨n, rfl⟩ : ∃ n, nw = n + 1 := ⟨nw - 1, by omega⟩
    have hdiv := (Int.mul_ediv_add_emod tasks (n + 1 : Nat)).symm
    have hr := Int.emod_nonneg tasks (show ((n + 1 : Nat) : Int) ≠ 0 by omega)
    have hless := Int.emod_lt_of_pos tasks (show (0 : Int) < (n + 1 : Nat) by omega)
    have hq : 1 ≤ tasks / (n + 1 : Nat) := (Int.le_ediv_iff_mul_le (by omega)).mpr (by omega)
    by_cases hone : tasks % (n + 1 : Nat) = 1
    · rw [hone] at hdiv hless
      exact initData_of_spare htasks hstep hchunk hpos hbefore henough hq hdiv (by omega)
    · exact initData_of_divided htasks hstep hchunk hpos hbefore henough hq hdiv hr hless hone

end InitData

end ParallelWatermark.FastFlow.ParallelFor
