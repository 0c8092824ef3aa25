import ParallelWatermark.FastFlow.ParallelFor.Active
import ParallelWatermark.Proof.FastFlow.ParallelFor.Passive

/-!
# What the scheduler sends

As long as the counts of the table are the numbers of its tasks, a task sent is a task of the table,
and `nextTask` finds one if there is any.
-/

namespace ParallelWatermark.FastFlow.ParallelFor.Active

open Buffer

/-! ### The table -/

/-- The tasks in a table. -/
def worksOf (sched : Scheduler) (data : Table) : List (Int × Int) :=
  (List.range sched.size).flatMap fun id => workOf sched.step sched.endchunk (data id)

/-- The counts are the numbers of tasks, and only workers that are started have any. -/
structure TableInv (sched : Scheduler) (data : Table) : Prop where
  exact : ∀ id, ((workOf sched.step sched.endchunk (data id)).length : Int) = (data id).ntask
  rest : ∀ id, sched.nw ≤ id → workOf sched.step sched.endchunk (data id) = []

section Table

variable {sched : Scheduler} (hready : Ready sched) {data : Table}
include hready

theorem tableInv_ready (hdynamic : sched.staticScheduling = false) : TableInv sched sched.data := by
  refine ⟨hready.dynamic hdynamic, fun id hid => List.eq_nil_of_length_eq_zero ?_⟩
  have hexact := hready.dynamic hdynamic id
  rw [hready.rest id hid] at hexact
  exact_mod_cast hexact

theorem worksOf_ready (hdynamic : sched.staticScheduling = false) : worksOf sched sched.data = sched.works :=
  flatMap_range_of_nil (fun id => (tableInv_ready hready hdynamic).rest id) hready.nw_le

/-- A task that is taken from the table. -/
theorem TableInv.give (hinv : TableInv sched data) {id : Nat} (hopen : 0 < (data id).ntask) :
    TableInv sched (Function.update data id (sched.sentOf (data id))) ∧ (sched.nextOf (data id)).calls.length = 1 ∧
      (worksOf sched data).Perm
        ((sched.nextOf (data id)).calls ++ worksOf sched (Function.update data id (sched.sentOf (data id)))) := by
  have hexact := hinv.exact id
  have hwork := hready.workOf_eq (data id)
  have hone : (sched.nextOf (data id)).calls.length = 1 := by
    rw [ForallTask.calls]
    split_ifs with hlt
    · rfl
    · rw [workOf_of_ge (not_lt.mp fun h => hlt ((hready.nextOf_lt_iff _).mpr h))] at hexact
      simp only [List.length_nil] at hexact
      omega
  have hid : id < sched.nw := by
    by_contra hge
    rw [hinv.rest id (by omega)] at hexact
    simp only [List.length_nil] at hexact
    omega
  refine ⟨⟨fun id' => ?_, fun id' hid' => ?_⟩, hone, ?_⟩
  · by_cases hsame : id' = id
    · subst hsame
      rw [hwork, List.length_append, hone] at hexact
      simp only [Function.update_self, Scheduler.workOf_sentOf, Scheduler.sentOf_ntask]
      push_cast at hexact
      omega
    · rw [Function.update_of_ne hsame]
      exact hinv.exact id'
  · rw [Function.update_of_ne (by omega)]
    exact hinv.rest id' hid'
  · refine Passive.perm_flatMap_update (hid.trans_le hready.nw_le) ?_ fun i hi => ?_
    · simp only [Function.update_self, Scheduler.workOf_sentOf]
      exact List.Perm.of_eq hwork
    · simp only [Function.update_of_ne hi]

end Table

/-! ### The first tasks -/

/-- The tasks sent and those left in the table are the tasks of the loop. -/
structure SendInv (sched : Scheduler) (f : Sending) : Prop where
  table : TableInv sched f.data
  bound : ∀ p ∈ f.sent, p.1 < sched.nw
  perm : (f.sent.flatMap (fun p => p.2.calls) ++ worksOf sched f.data).Perm sched.works
  count : f.sent.length + (worksOf sched f.data).length = sched.works.length

theorem mem_sent_foldl {sched : Scheduler} {f : Sending} {p : Nat × ForallTask} (hp : p ∈ f.sent) (wids : List Nat) :
    p ∈ (wids.foldl sched.sendOne f).sent := by
  induction wids generalizing f with
  | nil => exact hp
  | cons wid wids ih =>
    refine ih ?_
    rw [Scheduler.sendOne]
    split_ifs
    · exact List.mem_append_left _ hp
    · exact hp

section SendTask

variable {sched : Scheduler} (hready : Ready sched)
include hready

theorem SendInv.sendOne {f : Sending} (hinv : SendInv sched f) {wid : Nat} (hwid : wid < sched.nw) :
    SendInv sched (sched.sendOne f wid) := by
  obtain ⟨htable, hbound, hperm, hcount⟩ := hinv
  rw [Scheduler.sendOne]
  split_ifs with hopen
  · obtain ⟨htable', hone, hgive⟩ := htable.give hready hopen
    refine ⟨htable', ?_, ?_, ?_⟩
    · intro p hp
      rcases List.mem_append.mp hp with hp | hp
      · exact hbound p hp
      · rw [List.mem_singleton.mp hp]
        exact hwid
    · rw [List.flatMap_append, List.flatMap_singleton, List.append_assoc]
      exact (hgive.symm.append_left _).trans hperm
    · have hlength := hgive.length_eq
      simp only [List.length_append, List.length_singleton, hone] at hlength ⊢
      omega
  · exact ⟨htable, hbound, hperm, hcount⟩

theorem SendInv.foldl {f : Sending} (hinv : SendInv sched f) {wids : List Nat} (hwids : ∀ wid ∈ wids, wid < sched.nw) :
    SendInv sched (wids.foldl sched.sendOne f) := by
  induction wids generalizing f with
  | nil => exact hinv
  | cons wid wids ih =>
    exact ih (hinv.sendOne hready (hwids wid List.mem_cons_self)) fun wid' hwid' => hwids wid' (List.mem_cons_of_mem _ hwid')

theorem sendTask_false (hdynamic : sched.staticScheduling = false) :
    SendInv sched (sched.sendTask false) ∧ ∀ w < sched.nw, ∃ task, (w, task) ∈ (sched.sendTask false).sent := by
  have hstart : SendInv sched ⟨sched.data, [], false⟩ := by
    refine ⟨tableInv_ready hready hdynamic, by simp, ?_, ?_⟩
    · simp [worksOf_ready hready hdynamic]
    · simp [worksOf_ready hready hdynamic]
  have hwids : ∀ wid ∈ List.range sched.nw, wid < sched.nw := fun wid => List.mem_range.mp
  have hfirst := hstart.foldl hready hwids
  have hsent : ∀ w < sched.nw, (w, sched.nextOf (sched.data w)) ∈ ((List.range sched.nw).foldl sched.sendOne
      ⟨sched.data, [], false⟩).sent := by
    intro w hw
    rw [sched.foldl_sendOne hready.count]
    simp [hw]
  rw [Scheduler.sendTask]
  simp only
  generalize (List.range sched.nw).foldl sched.sendOne ⟨sched.data, [], false⟩ = f at *
  split_ifs
  · have hagain : SendInv sched { f with skip1 := true } := ⟨hfirst.table, hfirst.bound, hfirst.perm, hfirst.count⟩
    exact ⟨hagain.foldl hready hwids, fun w hw =>
      ⟨_, mem_sent_foldl (show _ ∈ ({ f with skip1 := true } : Sending).sent from hsent w hw) _⟩⟩
  · exact ⟨hfirst, fun w hw => ⟨_, hsent w hw⟩⟩

end SendTask

/-! ### The scheduler -/

theorem le_maxElement {sched : Scheduler} (data : Table) {id : Nat} (hid : id < sched.size) :
    (data id).ntask ≤ (data (maxElement sched data)).ntask := by
  have hfold : ∀ n, ∀ k < n + 1, (data k).ntask ≤ (data ((List.range' 1 n).foldl
      (fun largest k => if (data largest).ntask < (data k).ntask then k else largest) 0)).ntask := by
    intro n
    induction n with
    | zero =>
      intro k hk
      rw [show k = 0 by omega]
      exact Int.le_refl _
    | succ n ih =>
      intro k hk
      rw [List.range'_1_concat, List.foldl_append, List.foldl_cons, List.foldl_nil]
      generalize (List.range' 1 n).foldl
        (fun largest k => if (data largest).ntask < (data k).ntask then k else largest) 0 = largest at *
      by_cases hlast : k = 1 + n
      · subst hlast
        split_ifs <;> omega
      · have hle := ih k (by omega)
        split_ifs <;> omega
  exact hfold (sched.size - 1) id (by omega)

theorem open_of_nextTask {sched : Scheduler} {data : Table} (hinv : TableInv sched data) {maxid : Int} {wid id : Nat}
    (hnext : (nextTask sched data maxid wid).1 = some id) : 0 < (data id).ntask := by
  simp only [nextTask] at hnext
  split_ifs at hnext with hown hmaxid hmax
  · obtain rfl : wid = id := Option.some.inj hnext
    have hexact := hinv.exact wid
    omega
  · obtain rfl : maxid.toNat = id := Option.some.inj hnext
    exact hmaxid.2
  · obtain rfl : maxElement sched data = id := Option.some.inj hnext
    exact hmax

theorem worksOf_of_nextTask {sched : Scheduler} {data : Table} (hinv : TableInv sched data) {maxid : Int} {wid : Nat}
    (hnext : (nextTask sched data maxid wid).1 = none) : worksOf sched data = [] := by
  simp only [nextTask] at hnext
  split_ifs at hnext with hown hmaxid hmax
  refine List.flatMap_eq_nil_iff.mpr fun id hid => List.eq_nil_of_length_eq_zero ?_
  have hle := le_maxElement data (List.mem_range.mp hid)
  have hexact := hinv.exact id
  omega

/-- What is sent to a worker for whom there is no task, if it has been sent `GO_OUT` or has not been. -/
def goOuts (gone : Bool) : List Msg := if gone then [] else [.goOut]

theorem goOut_eq (t : Serving) (wid : Nat) : goOut t wid =
    ((goOuts (t.eossent wid)).map (wid, ·), { t with eossent := Function.update t.eossent wid true }) := by
  rw [goOut]
  split_ifs with hgone
  · rw [hgone, ← hgone, Function.update_eq_self, hgone]
    rfl
  · rw [eq_false_of_ne_true hgone]
    rfl

/-- What `svc` does with a task given back: it sends another task, or `GO_OUT` if there is none and this has
not been done, and returns if it was the last. -/
theorem svc_cases {sched : Scheduler} {t : Serving} (hinv : TableInv sched t.data) (wid : Nat) :
    (∃ id maxid, 0 < (t.data id).ntask ∧ 1 < t.totaltasks ∧ svc sched t wid =
      ([(wid, .task (sched.nextOf (t.data id)))],
        ⟨Function.update t.data id (sched.sentOf (t.data id)), maxid, t.totaltasks - 1, t.eossent, t.returned⟩)) ∨
    ∃ maxid, (worksOf sched t.data = [] ∨ t.totaltasks ≤ 1) ∧ svc sched t wid =
      ((goOuts (t.eossent wid)).map (wid, ·),
        ⟨t.data, maxid, t.totaltasks - 1, Function.update t.eossent wid true, t.returned || decide (t.totaltasks ≤ 1)⟩) := by
  simp only [svc]
  by_cases hlast : t.totaltasks - 1 ≤ 0
  · refine Or.inr ⟨t.maxid, Or.inr (by omega), ?_⟩
    rw [if_pos hlast, goOut_eq, decide_eq_true (show t.totaltasks ≤ 1 by omega), Bool.or_true]
  · rw [if_neg hlast]
    cases hnext : (nextTask sched t.data t.maxid wid).1 with
    | some id =>
      exact Or.inl ⟨id, _, open_of_nextTask hinv hnext, by omega, rfl⟩
    | none =>
      refine Or.inr ⟨(nextTask sched t.data t.maxid wid).2, Or.inl (worksOf_of_nextTask hinv hnext), ?_⟩
      simp only [goOut_eq]
      rw [decide_eq_false (show ¬ t.totaltasks ≤ 1 by omega), Bool.or_false]

end ParallelWatermark.FastFlow.ParallelFor.Active
