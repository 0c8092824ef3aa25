import Mathlib.Algebra.Order.BigOperators.Group.Finset
import ParallelWatermark.Proof.FastFlow.ParallelFor.Passive

/-!
# How long the workers can go on

A count that is lowered pays for all the workers who will now find it closed, and an exchange that
moves the start of an entry for all whose exchange will now fail. So only exchanges that fail for no
reason are not paid for.
-/

namespace ParallelWatermark.FastFlow.ParallelFor.Passive

open Buffer Process

variable {ε δ : Type} {loop : Loop ε δ} {value : δ} {evs : List (Event loop.sched ε)} {s s' : State loop.sched ε δ}
  {e : Event loop.sched ε}

/-! ### Sums over workers and entries -/

theorem sum_update_le {ι σ : Type} [Fintype ι] [DecidableEq ι] {r r' : σ → Nat} {c : Nat} (hle : ∀ x, r' x ≤ r x + c)
    (f : ι → σ) (i : ι) (x : σ) :
    (∑ j, r' (Function.update f i x j)) + r (f i) ≤ (∑ j, r (f j)) + r' x + Fintype.card ι * c := by
  have hterm : ∀ j ∈ Finset.univ, r' (Function.update f i x j) + (if i = j then r (f i) else 0) ≤
      r (f j) + (if i = j then r' x else 0) + c := by
    intro j _
    by_cases hj : i = j
    · subst hj
      simp only [Function.update_self, if_true]
      omega
    · simp only [Function.update_of_ne (Ne.symm hj), if_neg hj]
      have := hle (f j)
      omega
  have hsum := Finset.sum_le_sum hterm
  simpa [Finset.sum_add_distrib] using hsum

theorem sum_range_update {σ : Type} (r : σ → Nat) (f : Nat → σ) {n i : Nat} (hi : i < n) (x : σ) :
    (∑ j ∈ Finset.range n, r (Function.update f i x j)) + r (f i) = (∑ j ∈ Finset.range n, r (f j)) + r x := by
  have hmem := Finset.mem_range.mpr hi
  have hrest : ∀ j ∈ (Finset.range n).erase i, r (Function.update f i x j) = r (f j) := by
    intro j hj
    rw [Function.update_of_ne (Finset.ne_of_mem_erase hj)]
  rw [← Finset.add_sum_erase _ _ hmem, ← Finset.add_sum_erase _ (fun j => r (f j)) hmem,
    Finset.sum_congr rfl hrest, Function.update_self]
  omega

/-! ### Costs -/

section Cost

variable (sched : Scheduler) (body : ForallTask → List ε)

/-- What it costs to look for another entry. -/
def lookCost : Nat := 9 + 2 * sched.size

def closedCost (d : DataPair) : Nat := if 0 < d.ntask then 0 else lookCost sched

def staleCost (d : DataPair) (oldstart : Int) : Nat := if d.task.start = oldstart then 0 else 3

/-- What a worker may spend before it takes its next task or lowers a count. -/
def Pc.cost (data : Table) : Pc ε → Nat
  | .noTask | .out => 0
  | .running todo => 6 + lookCost sched + todo.length
  | .test id => 4 + closedCost sched (data id)
  | .loadStart id => 3 + closedCost sched (data id)
  | .swap id oldstart => 2 + closedCost sched (data id) + staleCost (data id) oldstart
  | .subtract id task =>
      if task.start < task.stop then 7 + lookCost sched + (body task).length else 1 + closedCost sched (data id)
  | .testMaxid => 9 + 2 * sched.size
  | .loadMaxid => 8
  | .findMax k _ => 8 + 2 * (sched.size - k)
  | .compare k _ _ => 7 + 2 * (sched.size - k)
  | .loadNtask _ => 7
  | .compareMaxid id => 6 + closedCost sched (data id)
  | .storeMaxid id => 5 + closedCost sched (data id)

/-- How far the start of an entry has to go. -/
def distance (d : DataPair) : Nat := (d.task.stop - 1 + sched.step - d.task.start).natAbs

def bodyLength (ranges : List (Int × Int)) : Nat := (ranges.map fun call => (body ⟨call.1, call.2⟩).length).sum

/-- What is spent on an entry: its count, the exchanges that move it, and the actions for its tasks. -/
def entryCost (d : DataPair) : Nat :=
  (sched.nw + 1) * lookCost sched * d.ntask.toNat + (7 + lookCost sched + 3 * sched.nw) * distance sched d +
    bodyLength body (workOf sched.step sched.endchunk d)

end Cost

def rank (loop : Loop ε δ) (s : State loop.sched ε δ) : Nat :=
  (∑ i ∈ Finset.range loop.sched.size, entryCost loop.sched loop.body (s.data i)) +
    ∑ w, (s.pc w).cost loop.sched loop.body s.data

theorem rank_goto (w : Fin loop.sched.nw) (pc : Pc ε) :
    rank loop (s.goto w pc) + (s.pc w).cost loop.sched loop.body s.data = rank loop s + pc.cost loop.sched loop.body s.data := by
  have hsum := Farm.sum_update s.pc (fun pc => pc.cost loop.sched loop.body s.data) w pc
  simp only [rank, State.goto]
  omega

theorem noMore_cost (sched : Scheduler) (body : ForallTask → List ε) (data : Table) :
    (noMore sched : Pc ε).cost sched body data ≤ lookCost sched := by
  rw [noMore]
  split_ifs
  · exact Nat.zero_le _
  · exact Nat.le_refl _

theorem scan_cost (sched : Scheduler) (body : ForallTask → List ε) (data : Table) (k largest : Nat) :
    (scan sched k largest : Pc ε).cost sched body data ≤ 8 + 2 * (sched.size - k) := by
  rw [scan]
  split_ifs
  · exact Nat.le_refl _
  · simp only [Pc.cost]
    omega

theorem closedCost_le (sched : Scheduler) (d : DataPair) : closedCost sched d ≤ lookCost sched := by
  rw [closedCost]
  split_ifs <;> omega

theorem read_cost {sched : Scheduler} {body : ForallTask → List ε} {data : Table} {maxid : Int} {pc pc' : Pc ε}
    (hsize : 0 < sched.size) (hwithin : pc.Within sched.size) (hread : pc.read sched data maxid = some pc') :
    pc'.cost sched body data < pc.cost sched body data := by
  cases pc with
  | test id =>
    simp only [Pc.read, Option.some.injEq] at hread
    subst hread
    split_ifs with hopen
    · simp [Pc.cost]
    · refine (noMore_cost sched body data).trans_lt ?_
      simp only [Pc.cost, closedCost, if_neg hopen]
      omega
  | loadStart id =>
    simp only [Pc.read, Option.some.injEq] at hread
    subst hread
    simp [Pc.cost, staleCost]
  | testMaxid =>
    simp only [Pc.read, Option.some.injEq] at hread
    subst hread
    split_ifs
    · refine (scan_cost sched body data 1 0).trans_lt ?_
      simp only [Pc.cost]
      omega
    · simp only [Pc.cost]
      omega
  | loadMaxid =>
    simp only [Pc.read, Option.some.injEq] at hread
    subst hread
    simp [Pc.cost]
  | findMax k largest =>
    simp only [Pc.read, Option.some.injEq] at hread
    subst hread
    simp [Pc.cost]
  | compare k largest ntask =>
    simp only [Pc.read, Option.some.injEq] at hread
    subst hread
    have hk : k < sched.size := hwithin.1
    refine (scan_cost sched body data (k + 1) _).trans_lt ?_
    simp only [Pc.cost]
    omega
  | loadNtask id =>
    simp only [Pc.read, Option.some.injEq] at hread
    subst hread
    split_ifs with hopen
    · simp [Pc.cost, closedCost, hopen]
    · simp [Pc.cost]
  | compareMaxid id =>
    simp only [Pc.read, Option.some.injEq] at hread
    subst hread
    split_ifs <;> simp [Pc.cost]
  | noTask => simp [Pc.read] at hread
  | running todo => simp [Pc.read] at hread
  | swap id oldstart => simp [Pc.read] at hread
  | subtract id task => simp [Pc.read] at hread
  | storeMaxid id => simp [Pc.read] at hread
  | out => simp [Pc.read] at hread

section CostEqs

variable (sched : Scheduler) (body : ForallTask → List ε) (data : Table)

theorem Pc.cost_swap (id : Nat) (oldstart : Int) : (Pc.swap id oldstart : Pc ε).cost sched body data =
    2 + closedCost sched (data id) + staleCost (data id) oldstart := rfl

theorem Pc.cost_subtract (id : Nat) (task : ForallTask) : (Pc.subtract id task : Pc ε).cost sched body data =
    if task.start < task.stop then 7 + lookCost sched + (body task).length else 1 + closedCost sched (data id) := rfl

end CostEqs

theorem Pc.cost_le {sched : Scheduler} (body : ForallTask → List ε) {data data' : Table} {c c' : Nat}
    (hclosed : ∀ id, closedCost sched (data' id) ≤ closedCost sched (data id) + c)
    (hstale : ∀ id oldstart, staleCost (data' id) oldstart ≤ staleCost (data id) oldstart + c') (pc : Pc ε) :
    pc.cost sched body data' ≤ pc.cost sched body data + (c + c') := by
  cases pc with
  | test id | loadStart id | compareMaxid id | storeMaxid id =>
    have := hclosed id
    simp only [Pc.cost]
    omega
  | swap id oldstart =>
    have := hclosed id
    have := hstale id oldstart
    simp only [Pc.cost]
    omega
  | subtract id task =>
    have := hclosed id
    simp only [Pc.cost]
    split_ifs <;> omega
  | noTask | running _ | testMaxid | loadMaxid | findMax _ _ | compare _ _ _ | loadNtask _ | out =>
    simp only [Pc.cost]
    omega

/-! ### An exchange -/

section Take

variable (hready : Ready loop.sched) {w : Fin loop.sched.nw} {id : Nat}
include hready

theorem distance_advance (d : DataPair) (hmoved : (loop.sched.advance d).task.start ≠ d.task.start) :
    distance loop.sched (loop.sched.advance d) + 1 ≤ distance loop.sched d := by
  have hwidth := hready.endchunk_pos
  have hstep := hready.step_pos
  simp only [Scheduler.advance, Scheduler.nextOf, distance] at hmoved ⊢
  omega

theorem start_advance_ne {d : DataPair} (hlt : d.task.start < d.task.stop) :
    (loop.sched.advance d).task.start ≠ d.task.start := by
  have hwidth := hready.endchunk_pos
  have hstep := hready.step_pos
  simp only [Scheduler.advance, Scheduler.nextOf]
  omega

theorem bodyLength_workOf (d : DataPair) :
    bodyLength loop.body (workOf loop.sched.step loop.sched.endchunk d) =
      (if (loop.sched.nextOf d).start < (loop.sched.nextOf d).stop then (loop.body (loop.sched.nextOf d)).length else 0) +
        bodyLength loop.body (workOf loop.sched.step loop.sched.endchunk (loop.sched.advance d)) := by
  rw [hready.workOf_eq d, bodyLength, bodyLength, List.map_append, List.sum_append, ForallTask.calls]
  split_ifs <;> simp

theorem entryCost_eq (d : DataPair) :
    entryCost loop.sched loop.body d +
        (7 + lookCost loop.sched + 3 * loop.sched.nw) * distance loop.sched (loop.sched.advance d) =
      entryCost loop.sched loop.body (loop.sched.advance d) +
        (7 + lookCost loop.sched + 3 * loop.sched.nw) * distance loop.sched d +
        if (loop.sched.nextOf d).start < (loop.sched.nextOf d).stop then (loop.body (loop.sched.nextOf d)).length else 0 := by
  rw [entryCost, entryCost, bodyLength_workOf hready d, show (loop.sched.advance d).ntask = d.ntask from rfl]
  omega

theorem rank_take {oldstart : Int} (hid : id < loop.sched.size) (hpc : s.pc w = .swap id oldstart)
    (hsame : (s.data id).task.start = oldstart) : rank loop (s.take w id) < rank loop s := by
  have hclosed : ∀ id', closedCost loop.sched ((s.take w id).data id') ≤ closedCost loop.sched (s.data id') + 0 := by
    intro id'
    by_cases hid' : id' = id
    · subst hid'
      simp [State.take, closedCost, Scheduler.advance]
    · simp [State.take, Function.update_of_ne hid']
  have hstale : ∀ id' start, staleCost ((s.take w id).data id') start ≤ staleCost (s.data id') start +
      if (loop.sched.advance (s.data id)).task.start = (s.data id).task.start then 0 else 3 := by
    intro id' start
    by_cases hid' : id' = id
    · subst hid'
      simp only [State.take, Function.update_self, staleCost]
      split_ifs <;> omega
    · simp [State.take, Function.update_of_ne hid']
  have hworkers := sum_update_le (Pc.cost_le loop.body hclosed hstale) s.pc w (.subtract id (loop.sched.nextOf (s.data id)))
  have hentries := sum_range_update (entryCost loop.sched loop.body) s.data hid (loop.sched.advance (s.data id))
  have hentry := entryCost_eq hready (s.data id)
  have hself := hclosed id
  rw [hpc, Pc.cost_swap, Pc.cost_subtract, staleCost, if_pos hsame, Fintype.card_fin, Nat.zero_add] at hworkers
  simp only [rank, State.take, State.goto] at *
  by_cases hmoved : (loop.sched.advance (s.data id)).task.start = (s.data id).task.start
  · -- Nothing was left in the entry.
    have hempty : ¬ (loop.sched.nextOf (s.data id)).start < (loop.sched.nextOf (s.data id)).stop := fun h =>
      start_advance_ne hready ((hready.nextOf_lt_iff _).mp h) hmoved
    have hdistance : distance loop.sched (loop.sched.advance (s.data id)) = distance loop.sched (s.data id) := by
      simp only [distance, hmoved]
      rfl
    rw [hdistance, if_neg hempty] at hentry
    rw [if_pos hmoved, if_neg hempty] at hworkers
    omega
  · have hdistance := Nat.mul_le_mul_left (7 + lookCost loop.sched + 3 * loop.sched.nw)
      (distance_advance hready (s.data id) hmoved)
    rw [Nat.mul_add, Nat.mul_one] at hdistance
    rw [if_neg hmoved] at hworkers
    split_ifs at hworkers hentry <;> omega

end Take

/-! ### A count -/

theorem entryCost_settle (sched : Scheduler) (body : ForallTask → List ε) (d : DataPair) :
    entryCost sched body { d with ntask := d.ntask - 1 } + (if 0 < d.ntask then (sched.nw + 1) * lookCost sched else 0) ≤
      entryCost sched body d := by
  have hdistance : distance sched { d with ntask := d.ntask - 1 } = distance sched d := rfl
  have hwork : workOf sched.step sched.endchunk { d with ntask := d.ntask - 1 } = workOf sched.step sched.endchunk d := rfl
  rw [entryCost, entryCost, hdistance, hwork]
  dsimp only
  split_ifs with hopen
  · have hcount : d.ntask.toNat = (d.ntask - 1).toNat + 1 := by omega
    rw [hcount, Nat.mul_add, Nat.mul_one]
    omega
  · have hcount : (d.ntask - 1).toNat = d.ntask.toNat := by omega
    rw [hcount]
    omega

theorem rank_settle {w : Fin loop.sched.nw} {id : Nat} {task : ForallTask} (hid : id < loop.sched.size)
    (hpc : s.pc w = .subtract id task) :
    rank loop (s.settle w id (if task.start < task.stop then .running (loop.body task) else noMore loop.sched)) <
      rank loop s := by
  generalize hnext : (if task.start < task.stop then .running (loop.body task) else noMore loop.sched : Pc ε) = pc
  have hclosed : ∀ id', closedCost loop.sched ((s.settle w id pc).data id') ≤ closedCost loop.sched (s.data id') +
      if 0 < (s.data id).ntask then lookCost loop.sched else 0 := by
    intro id'
    by_cases hid' : id' = id
    · subst hid'
      simp only [State.settle, Function.update_self, closedCost]
      split_ifs <;> omega
    · simp [State.settle, Function.update_of_ne hid']
  have hstale : ∀ id' start, staleCost ((s.settle w id pc).data id') start ≤ staleCost (s.data id') start + 0 := by
    intro id' start
    by_cases hid' : id' = id
    · subst hid'
      simp [State.settle, staleCost]
    · simp [State.settle, Function.update_of_ne hid']
  have hworkers := sum_update_le (Pc.cost_le loop.body hclosed hstale) s.pc w pc
  have hentries := sum_range_update (entryCost loop.sched loop.body) s.data hid
    { s.data id with ntask := (s.data id).ntask - 1 }
  have hentry := entryCost_settle loop.sched loop.body (s.data id)
  have hself : pc.cost loop.sched loop.body (s.settle w id pc).data ≤
      if task.start < task.stop then 6 + lookCost loop.sched + (loop.body task).length else lookCost loop.sched := by
    rw [← hnext]
    split_ifs
    · exact Nat.le_refl _
    · exact noMore_cost _ _ _
  rw [hpc, Pc.cost_subtract, Fintype.card_fin, Nat.add_zero, closedCost] at hworkers
  rw [Nat.add_mul, Nat.one_mul] at hentry
  simp only [rank, State.settle, State.goto] at *
  split_ifs at * <;> omega

/-! ### Steps -/

/-- The exchanges that are not paid for. -/
def Event.spurious {sched : Scheduler} : Event sched ε → Bool
  | .failed _ spurious => spurious
  | _ => false

theorem rank_step (hready : Ready loop.sched) (hinv : Inv s) (hstep : Step loop s e s') :
    rank loop s' + (if e.spurious then 0 else 1) ≤ rank loop s + (if e.spurious then 2 else 0) := by
  have hsize : 0 < loop.sched.size := hready.nw_pos.trans_le hready.nw_le
  cases hstep with
  | @act w a todo hpc =>
    have hrank := @rank_goto ε δ loop s w (.running todo)
    have hsame : rank loop { s.goto w (.running todo) with value := loop.effect a s.value } =
        rank loop (s.goto w (.running todo)) := rfl
    rw [hpc] at hrank
    simp only [Pc.cost, List.length_cons] at hrank
    simp only [Event.spurious, hsame, Bool.false_eq_true, if_false]
    omega
  | @returned w hpc =>
    have hrank := @rank_goto ε δ loop s w (.test w)
    have hclosed := closedCost_le loop.sched (s.data w)
    rw [hpc] at hrank
    simp only [Pc.cost, List.length_nil] at hrank
    simp only [Event.spurious, Bool.false_eq_true, if_false]
    omega
  | @read w pc hpc =>
    have hrank := @rank_goto ε δ loop s w pc
    have hcost := @read_cost ε loop.sched loop.body _ _ _ _ hsize (hinv.within w) hpc
    simp only [Event.spurious, Bool.false_eq_true, if_false]
    omega
  | @took w id oldstart hpc hsame =>
    have hwithin := hinv.within w
    rw [hpc] at hwithin
    have hrank := rank_take hready hwithin hpc hsame
    simp only [Event.spurious, Bool.false_eq_true, if_false]
    exact hrank
  | @failed w id oldstart hpc =>
    have hrank := @rank_goto ε δ loop s w (.test id)
    rw [hpc] at hrank
    simp only [Pc.cost, staleCost] at hrank
    simp only [Event.spurious, decide_eq_true_eq]
    split_ifs at hrank ⊢ <;> omega
  | @subtract w id task hpc =>
    have hwithin := hinv.within w
    rw [hpc] at hwithin
    have hrank := rank_settle hwithin hpc
    simp only [Event.spurious, Bool.false_eq_true, if_false]
    exact hrank
  | @storeMaxid w id hpc =>
    have hrank := @rank_goto ε δ loop s w (.test id)
    have hsame : rank loop { s.goto w (.test id) with maxid := id } = rank loop (s.goto w (.test id)) := rfl
    rw [hpc] at hrank
    simp only [Pc.cost] at hrank
    simp only [Event.spurious, hsame, Bool.false_eq_true, if_false]
    omega

section Runs

variable (hready : Ready loop.sched)
include hready

theorem rank_lt (hrun : History loop value evs s) (hstep : Step loop s e s') (hpaid : e.spurious = false) :
    rank loop s' < rank loop s := by
  have hrank := rank_step hready (inv_of_history hready hrun) hstep
  simp only [hpaid, Bool.false_eq_true, if_false] at hrank
  omega

/-- The number of steps of a run. -/
theorem length_le (hrun : History loop value evs s) :
    evs.length ≤ rank loop (start loop value) + 3 * evs.countP Event.spurious := by
  have hdecr : ∀ evs s e s', History loop value evs s → Step loop s e s' → e.spurious = false →
      rank loop s' < rank loop s := fun _ _ _ _ hrun hstep hpaid => rank_lt hready hrun hstep hpaid
  have hfree : ∀ evs s e s', History loop value evs s → Step loop s e s' → e.spurious = true →
      rank loop s' ≤ rank loop s + 2 := by
    intro evs s e s' hbefore hstep hkind
    have hrank := rank_step hready (inv_of_history hready hbefore) hstep
    simpa only [hkind, if_true, Nat.add_zero] using hrank
  have hbound := Run.length_le hdecr hfree hrun
  have hsplit := List.length_eq_countP_add_countP Event.spurious (l := evs)
  have hsame : evs.countP (fun e => decide ¬ e.spurious = true) = evs.countP fun e => !e.spurious := by
    congr 1
    funext e
    cases e.spurious <;> rfl
  omega

/-- Every run can be continued, by exchanges that do not fail for no reason, to one that is over. -/
theorem exists_terminal (hrun : History loop value evs s) :
    ∃ more t, History loop value (evs ++ more) t ∧ Terminal (Step loop) t := by
  have hdecr : ∀ evs s e s', History loop value evs s → Step loop s e s' → e.spurious = false →
      rank loop s' < rank loop s := fun _ _ _ _ hrun hstep hpaid => rank_lt hready hrun hstep hpaid
  obtain ⟨more, t, hmore, -, hresting⟩ := Run.exists_resting hdecr hrun
  refine ⟨more, t, hmore, fun e t' hstep => ?_⟩
  have hspurious := hresting e t' hstep
  cases hstep with
  | @failed w id oldstart hpc =>
    -- The exchange could have succeeded too.
    have htook := hresting _ _ (.took hpc (of_decide_eq_true hspurious))
    cases htook
  | act _ => cases hspurious
  | returned _ => cases hspurious
  | read _ => cases hspurious
  | took _ _ => cases hspurious
  | subtract _ => cases hspurious
  | storeMaxid _ => cases hspurious

end Runs

end ParallelWatermark.FastFlow.ParallelFor.Passive
