import ParallelWatermark.FastFlow.ParallelFor.Passive
import ParallelWatermark.Process.Calls
import ParallelWatermark.Process.Interleaving
import ParallelWatermark.Process.Refinement
import ParallelWatermark.Proof.FastFlow.ParallelFor.Setloop

/-!
# Workers that serve themselves

The tasks taken and those left in the table are always the tasks of the loop. A worker gives up only
when its own entry is empty: a count is never below the number of tasks that are left, with those
taken but not yet subtracted, so nothing is left where a worker finds a count of zero.
-/

namespace ParallelWatermark.FastFlow.ParallelFor.Passive

open Buffer Process

variable {ε δ : Type} {loop : Loop ε δ} {value : δ} {evs : List (Event loop.sched ε)} {s s' : State loop.sched ε δ}
  {e : Event loop.sched ε}

/-- The tasks left in entry `id`. -/
def State.work {sched : Scheduler} (s : State sched ε δ) (id : Nat) : List (Int × Int) :=
  workOf sched.step sched.endchunk (s.data id)

/-! ### Where workers are -/

/-- The entries that a worker goes on to look at exist. -/
def Pc.Within (size : Nat) : Pc ε → Prop
  | .test id | .loadStart id | .swap id _ | .subtract id _ | .loadNtask id | .compareMaxid id | .storeMaxid id => id < size
  | .findMax k largest | .compare k largest _ => k < size ∧ largest < size
  | _ => True

/-- What a worker knows of the entries: its own is empty if it looks elsewhere, and one that had no
task for it is. -/
def Pc.Knows (work : Nat → List (Int × Int)) (w : Nat) : Pc ε → Prop
  | .noTask => False
  | .running _ => True
  | .test id | .loadStart id | .swap id _ => id = w ∨ work w = []
  | .subtract id task => (id = w ∨ work w = []) ∧ (task.start < task.stop ∨ work id = [])
  | _ => work w = []

/-- Whether the worker has taken a task from entry `id` that is still in the count. -/
def Pc.owes (id : Nat) : Pc ε → Nat
  | .subtract id' _ => if id' = id then 1 else 0
  | _ => 0

def State.owed {sched : Scheduler} (s : State sched ε δ) (id : Nat) : Nat := ∑ w, (s.pc w).owes id

structure Inv {sched : Scheduler} (s : State sched ε δ) : Prop where
  maxid : s.maxid < sched.size
  within : ∀ w, (s.pc w).Within sched.size
  knows : ∀ w, (s.pc w).Knows s.work w
  enough : ∀ id, s.work id ≠ [] → ((s.work id).length + s.owed id : Int) ≤ (s.data id).ntask
  rest : ∀ id, sched.nw ≤ id → s.work id = []

theorem Pc.Knows.mono {work work' : Nat → List (Int × Int)} (hnil : ∀ id, work id = [] → work' id = []) {w : Nat}
    {pc : Pc ε} (hknows : pc.Knows work w) : pc.Knows work' w := by
  cases pc with
  | noTask => exact hknows
  | running todo => trivial
  | test id => exact hknows.imp_right (hnil w)
  | loadStart id => exact hknows.imp_right (hnil w)
  | swap id oldstart => exact hknows.imp_right (hnil w)
  | subtract id task => exact ⟨hknows.1.imp_right (hnil w), hknows.2.imp_right (hnil id)⟩
  | testMaxid => exact hnil w hknows
  | loadMaxid => exact hnil w hknows
  | findMax k largest => exact hnil w hknows
  | compare k largest ntask => exact hnil w hknows
  | loadNtask id => exact hnil w hknows
  | compareMaxid id => exact hnil w hknows
  | storeMaxid id => exact hnil w hknows
  | out => exact hnil w hknows

/-! ### The start -/

section Start

variable (hready : Ready loop.sched) (value : δ)
include hready

theorem start_pc (w : Fin loop.sched.nw) :
    (start loop value).pc w = .running (loop.body (loop.sched.nextOf (loop.sched.data w))) := by
  simp only [start, hready.lookup_sendTask_true]

theorem start_data : (start loop value).data =
    fun i => if i < loop.sched.nw then loop.sched.sentOf (loop.sched.data i) else loop.sched.data i := by
  simp only [start, hready.sendTask_true]

/-- The task sent first and those that are left. -/
theorem work_start (id : Nat) : loop.sched.work id =
    (if id < loop.sched.nw then (loop.sched.nextOf (loop.sched.data id)).calls else []) ++ (start loop value).work id := by
  simp only [State.work, start_data hready]
  split_ifs with hid
  · exact hready.workOf_eq (loop.sched.data id)
  · rfl

theorem work_start_of_ge {id : Nat} (hid : loop.sched.nw ≤ id) : (start loop value).work id = [] := by
  have henough := hready.enough id
  rw [hready.rest id hid, work_start hready value id, if_neg (by omega), List.nil_append] at henough
  exact List.eq_nil_of_length_eq_zero (by omega)

theorem inv_start : Inv (start loop value) := by
  have hpos := hready.nw_pos
  have hle := hready.nw_le
  refine ⟨?_, fun w => ?_, fun w => ?_, fun id hsome => ?_, fun id hid => work_start_of_ge hready value hid⟩
  · simp only [start]
    omega
  · rw [start_pc hready]
    trivial
  · rw [start_pc hready]
    trivial
  · have howed : (start loop value).owed id = 0 := by
      refine Finset.sum_eq_zero fun w _ => ?_
      rw [start_pc hready]
      rfl
    have henough := hready.enough id
    rw [work_start hready value id, List.length_append] at henough
    rw [howed]
    simp only [State.work, start_data hready] at hsome henough ⊢
    split_ifs at hsome henough ⊢ with hid
    · rw [hready.length_calls hsome] at henough
      rw [Scheduler.sentOf_ntask, Scheduler.workOf_sentOf] at *
      push_cast at henough ⊢
      omega
    · push_cast
      omega

end Start

/-! ### One step -/

section Goto

variable {sched : Scheduler} {t : State sched ε δ} {w : Fin sched.nw} {pc : Pc ε}

theorem owed_goto (id : Nat) : (t.goto w pc).owed id + (t.pc w).owes id = t.owed id + pc.owes id :=
  Farm.sum_update t.pc (fun pc => pc.owes id) w pc

theorem forall_pc_goto {motive : Fin sched.nw → Pc ε → Prop} (hself : motive w pc) (hall : ∀ v, motive v (t.pc v)) (v : Fin sched.nw) :
    motive v ((t.goto w pc).pc v) := by
  by_cases hv : v = w
  · subst hv
    simpa [State.goto] using hself
  · simpa [State.goto, Function.update_of_ne hv] using hall v

/-- A worker that goes on without changing the table. -/
theorem Inv.goto (hinv : Inv t) (hwithin : pc.Within sched.size) (hknows : pc.Knows t.work w)
    (howes : ∀ id, pc.owes id = (t.pc w).owes id) : Inv (t.goto w pc) where
  maxid := hinv.maxid
  within := forall_pc_goto hwithin hinv.within
  knows := forall_pc_goto hknows hinv.knows
  enough := fun id hsome => by
    have howed := @owed_goto ε δ sched t w pc id
    rw [howes id] at howed
    rw [show (t.goto w pc).owed id = t.owed id by omega]
    exact hinv.enough id hsome
  rest := hinv.rest

end Goto

theorem Inv.work_eq_nil (hinv : Inv s) {id : Nat} (hclosed : ¬ 0 < (s.data id).ntask) : s.work id = [] := by
  by_contra hsome
  have henough := hinv.enough id hsome
  have := List.length_pos_of_ne_nil hsome
  omega

theorem noMore_within (sched : Scheduler) (size : Nat) : (noMore sched : Pc ε).Within size := by
  rw [noMore]
  split_ifs <;> trivial

theorem noMore_knows {sched : Scheduler} {work : Nat → List (Int × Int)} {w : Nat} (hnil : work w = []) :
    (noMore sched : Pc ε).Knows work w := by
  rw [noMore]
  split_ifs <;> exact hnil

theorem noMore_owes (sched : Scheduler) (id : Nat) : (noMore sched : Pc ε).owes id = 0 := by
  rw [noMore]
  split_ifs <;> rfl

theorem scan_within {sched : Scheduler} {k largest : Nat} (hlargest : largest < sched.size) :
    (scan sched k largest : Pc ε).Within sched.size := by
  rw [scan]
  split_ifs with hk
  · exact ⟨hk, hlargest⟩
  · exact hlargest

theorem scan_knows {sched : Scheduler} {work : Nat → List (Int × Int)} {w k largest : Nat} (hnil : work w = []) :
    (scan sched k largest : Pc ε).Knows work w := by
  rw [scan]
  split_ifs <;> exact hnil

theorem scan_owes (sched : Scheduler) (k largest id : Nat) : (scan sched k largest : Pc ε).owes id = 0 := by
  rw [scan]
  split_ifs <;> rfl

/-- What a load tells. -/
theorem read_spec {w : Fin loop.sched.nw} {pc : Pc ε} (hinv : Inv s) (hsize : 0 < loop.sched.size)
    (hread : (s.pc w).read loop.sched s.data s.maxid = some pc) :
    pc.Within loop.sched.size ∧ pc.Knows s.work w ∧ ∀ id, pc.owes id = (s.pc w).owes id := by
  have hwithin := hinv.within w
  have hknows := hinv.knows w
  generalize s.pc w = before at *
  cases before with
  | test id =>
    simp only [Pc.read, Option.some.injEq] at hread
    subst hread
    split_ifs with hopen
    · exact ⟨hwithin, hknows, fun _ => rfl⟩
    · have hnil : s.work w = [] := by
        rcases hknows with rfl | hnil
        · exact hinv.work_eq_nil hopen
        · exact hnil
      exact ⟨noMore_within _ _, noMore_knows hnil, noMore_owes _⟩
  | loadStart id =>
    simp only [Pc.read, Option.some.injEq] at hread
    subst hread
    exact ⟨hwithin, hknows, fun _ => rfl⟩
  | testMaxid =>
    simp only [Pc.read, Option.some.injEq] at hread
    subst hread
    split_ifs
    · exact ⟨scan_within hsize, scan_knows hknows, scan_owes _ _ _⟩
    · exact ⟨trivial, hknows, fun _ => rfl⟩
  | loadMaxid =>
    simp only [Pc.read, Option.some.injEq] at hread
    subst hread
    have hmaxid := hinv.maxid
    exact ⟨show s.maxid.toNat < loop.sched.size by omega, hknows, fun _ => rfl⟩
  | findMax k largest =>
    simp only [Pc.read, Option.some.injEq] at hread
    subst hread
    exact ⟨hwithin, hknows, fun _ => rfl⟩
  | compare k largest ntask =>
    simp only [Pc.read, Option.some.injEq] at hread
    subst hread
    exact ⟨scan_within (by split_ifs; exacts [hwithin.1, hwithin.2]), scan_knows hknows, scan_owes _ _ _⟩
  | loadNtask id =>
    simp only [Pc.read, Option.some.injEq] at hread
    subst hread
    split_ifs
    · exact ⟨hwithin, hknows, fun _ => rfl⟩
    · exact ⟨trivial, hknows, fun _ => rfl⟩
  | compareMaxid id =>
    simp only [Pc.read, Option.some.injEq] at hread
    subst hread
    split_ifs
    · exact ⟨hwithin, hknows, fun _ => rfl⟩
    · exact ⟨hwithin, Or.inr hknows, fun _ => rfl⟩
  | noTask => simp [Pc.read] at hread
  | running todo => simp [Pc.read] at hread
  | swap id oldstart => simp [Pc.read] at hread
  | subtract id task => simp [Pc.read] at hread
  | storeMaxid id => simp [Pc.read] at hread
  | out => simp [Pc.read] at hread

section Took

variable {w : Fin loop.sched.nw} {id : Nat} {oldstart : Int}

/-- The state after an exchange. -/
def State.take {sched : Scheduler} (s : State sched ε δ) (w : Fin sched.nw) (id : Nat) : State sched ε δ :=
  { s.goto w (.subtract id (sched.nextOf (s.data id))) with data := Function.update s.data id (sched.advance (s.data id)) }

theorem work_take_of_ne {id' : Nat} (hne : id' ≠ id) : (s.take w id).work id' = s.work id' := by
  simp [State.work, State.take, Function.update_of_ne hne]

theorem work_take (hready : Ready loop.sched) :
    s.work id = (loop.sched.nextOf (s.data id)).calls ++ (s.take w id).work id := by
  simpa [State.work, State.take] using hready.workOf_eq (s.data id)

theorem Inv.take (hready : Ready loop.sched) (hinv : Inv s) (hpc : s.pc w = .swap id oldstart) : Inv (s.take w id) := by
  have hwithin := hinv.within w
  have hknows := hinv.knows w
  rw [hpc] at hwithin hknows
  have hwork := @work_take ε δ loop s w id hready
  have hnil : ∀ id', s.work id' = [] → (s.take w id).work id' = [] := by
    intro id' hnil'
    by_cases hid : id' = id
    · subst hid
      rw [hnil'] at hwork
      exact (List.append_eq_nil_iff.mp hwork.symm).2
    · rw [work_take_of_ne hid, hnil']
  have hself : (Pc.subtract id (loop.sched.nextOf (s.data id)) : Pc ε).Knows (s.take w id).work w := by
    refine ⟨hknows.imp_right (hnil w), ?_⟩
    by_cases hlt : (loop.sched.nextOf (s.data id)).start < (loop.sched.nextOf (s.data id)).stop
    · exact Or.inl hlt
    · refine Or.inr (hnil id (workOf_of_ge (not_lt.mp fun h => hlt ((hready.nextOf_lt_iff _).mpr h))))
  refine ⟨hinv.maxid, forall_pc_goto hwithin hinv.within, forall_pc_goto hself fun v => (hinv.knows v).mono hnil,
    fun id' hsome => ?_, fun id' hid => hnil id' (hinv.rest id' hid)⟩
  have howed := @owed_goto ε δ loop.sched s w (.subtract id (loop.sched.nextOf (s.data id))) id'
  rw [hpc] at howed
  simp only [Pc.owes, Nat.add_zero] at howed
  by_cases hid : id = id'
  · subst hid
    rw [if_pos rfl] at howed
    have hone := hready.length_calls (d := s.data id) (by simpa [State.work, State.take] using hsome)
    have hold : s.work id ≠ [] := by
      rw [hwork]
      exact List.append_ne_nil_of_right_ne_nil _ hsome
    have henough := hinv.enough id hold
    rw [hwork, List.length_append, hone] at henough
    have hntask : ((s.take w id).data id).ntask = (s.data id).ntask := by
      simp [State.take, Scheduler.advance]
    rw [hntask, show (s.take w id).owed id = s.owed id + 1 from howed]
    push_cast at henough ⊢
    omega
  · rw [if_neg hid] at howed
    rw [work_take_of_ne (Ne.symm hid)] at hsome ⊢
    have hdata : (s.take w id).data id' = s.data id' := Function.update_of_ne (Ne.symm hid) _ _
    rw [hdata, show (s.take w id).owed id' = s.owed id' from howed]
    exact hinv.enough id' hsome

end Took

section Subtract

variable {w : Fin loop.sched.nw} {id : Nat} {task : ForallTask}

/-- The state after the count has been lowered. -/
def State.settle {sched : Scheduler} (s : State sched ε δ) (w : Fin sched.nw) (id : Nat) (pc : Pc ε) : State sched ε δ :=
  { s.goto w pc with data := Function.update s.data id { s.data id with ntask := (s.data id).ntask - 1 } }

theorem work_settle {pc : Pc ε} (id' : Nat) : (s.settle w id pc).work id' = s.work id' := by
  by_cases hid : id' = id
  · subst hid
    simp [State.work, State.settle, workOf]
  · simp [State.work, State.settle, Function.update_of_ne hid]

theorem Inv.settle {pc : Pc ε} (hinv : Inv s) (hpc : s.pc w = .subtract id task) (hwithin : pc.Within loop.sched.size)
    (hknows : pc.Knows s.work w) (howes : ∀ id', pc.owes id' = 0) : Inv (s.settle w id pc) := by
  have hwork : (s.settle w id pc).work = s.work := funext work_settle
  refine ⟨hinv.maxid, forall_pc_goto hwithin hinv.within, ?_, fun id' hsome => ?_, ?_⟩
  · rw [hwork]
    exact forall_pc_goto hknows hinv.knows
  rotate_left
  · rw [hwork]
    exact hinv.rest
  have howed := @owed_goto ε δ loop.sched s w pc id'
  rw [hpc, howes] at howed
  simp only [Pc.owes] at howed
  rw [hwork] at hsome ⊢
  have henough := hinv.enough id' hsome
  have hsame : (s.settle w id pc).owed id' = (s.goto w pc).owed id' := rfl
  by_cases hid : id = id'
  · subst hid
    rw [if_pos rfl] at howed
    simp only [State.settle, Function.update_self] at *
    rw [hsame]
    omega
  · rw [if_neg hid] at howed
    have hdata : (s.settle w id pc).data id' = s.data id' := Function.update_of_ne (Ne.symm hid) _ _
    rw [hdata, hsame]
    omega

end Subtract

theorem Inv.step (hready : Ready loop.sched) (hinv : Inv s) (hstep : Step loop s e s') : Inv s' := by
  have hle := hready.nw_le
  have hpos := hready.nw_pos
  cases hstep with
  | @act w a todo hpc =>
    obtain ⟨hmaxid, hwithin, hknows, henough, hrest⟩ :=
      @Inv.goto ε δ loop.sched s w (.running todo) hinv trivial trivial (by simp [hpc, Pc.owes])
    exact ⟨hmaxid, hwithin, hknows, henough, hrest⟩
  | @returned w hpc =>
    exact hinv.goto (show w.val < _ by omega) (Or.inl rfl) (by simp [hpc, Pc.owes])
  | read hpc =>
    obtain ⟨hwithin, hknows, howes⟩ := read_spec hinv (by omega) hpc
    exact hinv.goto hwithin hknows howes
  | took hpc hsame => exact hinv.take hready hpc
  | @failed w id oldstart hpc =>
    have hwithin := hinv.within w
    have hknows := hinv.knows w
    rw [hpc] at hwithin hknows
    exact hinv.goto hwithin hknows (by simp [hpc, Pc.owes])
  | @subtract w id task hpc =>
    have hknows := hinv.knows w
    rw [hpc] at hknows
    refine hinv.settle hpc ?_ ?_ ?_
    · split_ifs
      exacts [trivial, noMore_within _ _]
    · split_ifs with htask
      · trivial
      · have hnil := hknows.2.resolve_left htask
        refine noMore_knows ?_
        rcases hknows.1 with rfl | hown
        exacts [hnil, hown]
    · intro id'
      split_ifs
      exacts [rfl, noMore_owes _ _]
  | @storeMaxid w id hpc =>
    have hwithin := hinv.within w
    have hknows := hinv.knows w
    rw [hpc] at hwithin hknows
    obtain ⟨-, hwithin', hknows', henough, hrest⟩ :=
      @Inv.goto ε δ loop.sched s w (.test id) hinv hwithin (Or.inr hknows) (by simp [hpc, Pc.owes])
    exact ⟨Int.ofNat_lt.mpr hwithin, hwithin', hknows', henough, hrest⟩

theorem inv_of_history (hready : Ready loop.sched) (hrun : History loop value evs s) : Inv s :=
  hrun.invariant (motive := fun _ s => Inv s) (inv_start hready value) fun _ _ _ _ _ hinv hstep => hinv.step hready hstep

/-! ### The calls -/

def Event.acts {sched : Scheduler} : Event sched ε → List (Fin sched.nw × ε)
  | .act w a => [(w, a)]
  | _ => []

/-- What is left of a call. -/
def Pc.todo (body : ForallTask → List ε) : Pc ε → List ε
  | .running todo => todo
  | .subtract _ task => if task.start < task.stop then body task else []
  | _ => []

theorem flatMap_calls_event (w : Fin loop.sched.nw) (task : ForallTask) :
    (Event.took w task : Event loop.sched ε).calls.flatMap (fun p => p.2.calls) = task.calls := by
  simp only [Event.calls]
  split_ifs with htask
  · simp
  · simp [ForallTask.calls, htask]

theorem perm_flatMap_update {χ : Type*} {f g : Nat → List χ} {c : List χ} {n id : Nat} (hid : id < n)
    (hself : (f id).Perm (c ++ g id)) (hrest : ∀ i ≠ id, f i = g i) : ((List.range n).flatMap f).Perm (c ++ (List.range n).flatMap g) := by
  induction n with
  | zero => omega
  | succ n ih =>
    rw [List.range_succ, List.flatMap_append, List.flatMap_append]
    by_cases hlast : id = n
    · subst hlast
      have hsame : (List.range id).flatMap f = (List.range id).flatMap g :=
        List.flatMap_congr fun i hi => hrest i (List.mem_range.mp hi).ne
      simp only [List.flatMap_singleton, hsame]
      exact (hself.append_left _).trans (List.perm_append_comm_assoc _ _ _)
    · simp only [List.flatMap_singleton, hrest n (Ne.symm hlast), ← List.append_assoc]
      exact (ih (by omega)).append_right _

/-- The tasks left in the table. -/
def State.works {sched : Scheduler} (s : State sched ε δ) : List (Int × Int) := (List.range sched.size).flatMap s.work

theorem works_step (hready : Ready loop.sched) (hinv : Inv s) (hstep : Step loop s e s') :
    s.works.Perm (e.calls.flatMap (fun p => p.2.calls) ++ s'.works) := by
  cases hstep with
  | act _ => exact List.Perm.refl _
  | returned _ => exact List.Perm.refl _
  | read _ => exact List.Perm.refl _
  | @took w id oldstart hpc hsame =>
    have hwithin := hinv.within w
    rw [hpc] at hwithin
    rw [flatMap_calls_event]
    exact perm_flatMap_update hwithin (List.Perm.of_eq (work_take hready)) fun i hi => (work_take_of_ne hi).symm
  | failed _ => exact List.Perm.refl _
  | @subtract w id task hpc =>
    have hwork : (s.settle w id (if task.start < task.stop then .running (loop.body task) else noMore loop.sched)).work =
        s.work := funext work_settle
    have hworks : (s.settle w id (if task.start < task.stop then .running (loop.body task) else noMore loop.sched)).works =
        s.works := by rw [State.works, State.works, hwork]
    exact List.Perm.of_eq hworks.symm
  | storeMaxid _ => exact List.Perm.refl _

theorem works_start (hready : Ready loop.sched) (value : δ) :
    loop.sched.works.Perm ((calls loop []).flatMap (fun p => p.2.calls) ++ (start loop value).works) := by
  rw [State.works, flatMap_range_of_nil (fun i => work_start_of_ge hready value) hready.nw_le, Scheduler.works]
  have hwork : (List.range loop.sched.nw).flatMap loop.sched.work = (List.range loop.sched.nw).flatMap fun i =>
      (loop.sched.nextOf (loop.sched.data i)).calls ++ (start loop value).work i := by
    refine List.flatMap_congr fun i hi => ?_
    rw [work_start hready value i, if_pos (List.mem_range.mp hi)]
  rw [hwork]
  refine (List.flatMap_append_perm _ _ _).symm.trans (List.Perm.of_eq ?_)
  rw [calls, firstCalls, List.flatMap_nil, List.append_nil, List.flatMap_map, ← List.map_coe_finRange_eq_range, List.flatMap_map]

/-- The calls made and the tasks left are the tasks of the loop. -/
theorem calls_perm (hready : Ready loop.sched) (hrun : History loop value evs s) :
    ((calls loop evs).flatMap (fun p => p.2.calls) ++ s.works).Perm loop.sched.works := by
  refine hrun.invariant (motive := fun evs (s : State loop.sched ε δ) =>
    ((calls loop evs).flatMap (fun p => p.2.calls) ++ s.works).Perm loop.sched.works) (works_start hready value).symm ?_
  intro evs s e s' hbefore hperm hstep
  have hworks := works_step hready (inv_of_history hready hbefore) hstep
  refine List.Perm.trans ?_ hperm
  simp only [calls, List.flatMap_append, List.flatMap_singleton, List.append_assoc]
  exact (hworks.symm.append_left _).append_left _

/-! ### The actions -/

theorem ofWorker_firstCalls (sched : Scheduler) (w : Fin sched.nw) :
    Farm.ofWorker w (firstCalls sched) = [sched.nextOf (sched.data w)] := by
  have hone : ∀ l : List (Fin sched.nw), Farm.ofWorker w (l.map fun v => (v, sched.nextOf (sched.data v))) =
      List.replicate (l.count w) (sched.nextOf (sched.data w)) := by
    intro l
    induction l with
    | nil => rfl
    | cons v l ih =>
      rw [List.map_cons, ← List.singleton_append, Farm.ofWorker_append, ih]
      by_cases hv : v = w
      · subst hv
        rw [Farm.ofWorker_self, List.count_cons_self, List.replicate_succ]
        rfl
      · rw [Farm.ofWorker_of_ne hv, List.count_cons_of_ne hv]
        rfl
  rw [firstCalls, hone, (List.nodup_finRange _).count, if_pos (List.mem_finRange w)]
  rfl

theorem noMore_todo (sched : Scheduler) (body : ForallTask → List ε) : (noMore sched).todo body = [] := by
  rw [noMore]
  split_ifs <;> rfl

theorem scan_todo (sched : Scheduler) (k largest : Nat) (body : ForallTask → List ε) :
    (scan sched k largest).todo body = [] := by
  rw [scan]
  split_ifs <;> rfl

theorem read_todo {sched : Scheduler} {data : Table} {maxid : Int} {pc pc' : Pc ε} (body : ForallTask → List ε)
    (hread : pc.read sched data maxid = some pc') : pc.todo body = [] ∧ pc'.todo body = [] := by
  cases pc <;> simp only [Pc.read, Option.some.injEq, reduceCtorEq] at hread <;> subst hread <;>
    refine ⟨rfl, ?_⟩ <;> (try split_ifs) <;> first | rfl | exact noMore_todo _ _ | exact scan_todo _ _ _ _

/-- What a worker does is taken from what is left of its call, and a task taken adds to that. -/
theorem todo_step (hstep : Step loop s e s') (w : Fin loop.sched.nw) :
    Farm.ofWorker w e.acts ++ (s'.pc w).todo loop.body =
      (s.pc w).todo loop.body ++ (Farm.ofWorker w e.calls).flatMap loop.body := by
  have hown := fun {v : Fin loop.sched.nw} {pc : Pc ε} =>
    @Farm.ofWorker_step _ _ _ _ _ loop.body (Pc.todo loop.body) v s.pc pc
  cases hstep with
  | @act v a todo hpc => exact hown [a] [] (by simp [hpc, Pc.todo]) w
  | @returned v hpc => exact hown [] [] (by simp [hpc, Pc.todo]) w
  | @read v pc hpc =>
    obtain ⟨hbefore, hafter⟩ := read_todo loop.body hpc
    exact hown [] [] (by simp [hbefore, hafter]) w
  | @took v id oldstart hpc hsame =>
    by_cases htask : (loop.sched.nextOf (s.data id)).start < (loop.sched.nextOf (s.data id)).stop
    · rw [Event.calls, if_pos htask]
      exact hown [] [loop.sched.nextOf (s.data id)] (by simp [hpc, Pc.todo, htask]) w
    · rw [Event.calls, if_neg htask]
      exact hown [] [] (by simp [hpc, Pc.todo, htask]) w
  | @failed v id oldstart hpc => exact hown [] [] (by simp [hpc, Pc.todo]) w
  | @subtract v id task hpc =>
    refine hown [] [] ?_ w
    by_cases htask : task.start < task.stop
    · simp [hpc, Pc.todo, htask]
    · rw [if_neg htask, noMore_todo]
      simp [hpc, Pc.todo, htask]
  | @storeMaxid v id hpc => exact hown [] [] (by simp [hpc, Pc.todo]) w

/-- The actions of a worker so far and those left of its call are the bodies of its calls. -/
theorem acts_append_todo (hready : Ready loop.sched) (hrun : History loop value evs s) (w : Fin loop.sched.nw) :
    Farm.ofWorker w (evs.flatMap Event.acts) ++ (s.pc w).todo loop.body =
      (Farm.ofWorker w (calls loop evs)).flatMap loop.body := by
  have hacts := hrun.acts_append_todo loop.body (fun s w => (s.pc w).todo loop.body) Event.acts Event.calls
    (fun _ _ _ hstep => todo_step hstep) w
  rw [hacts, start_pc hready, calls, Farm.ofWorker_append, List.flatMap_append, ofWorker_firstCalls]
  simp [Pc.todo]

theorem value_eq (hrun : History loop value evs s) :
    s.value = ((evs.flatMap Event.acts).map Prod.snd).foldl (fun v a => loop.effect a v) value :=
  hrun.value_eq State.value loop.effect Event.acts fun _ _ _ hstep => by cases hstep <;> rfl

/-! ### The end -/

theorem pc_of_terminal (hinv : Inv s) (hterminal : Terminal (Step loop) s) (w : Fin loop.sched.nw) : s.pc w = .out := by
  have hstuck : ∀ pc, (s.pc w).read loop.sched s.data s.maxid ≠ some pc := fun pc hread =>
    hterminal _ _ (.read hread)
  cases hpc : s.pc w with
  | noTask =>
    have hknows := hinv.knows w
    rw [hpc] at hknows
    exact hknows.elim
  | running todo =>
    cases todo with
    | nil => exact absurd (.returned hpc) (hterminal _ _)
    | cons a todo => exact absurd (.act hpc) (hterminal _ _)
  | swap id oldstart => exact absurd (.failed hpc) (hterminal _ _)
  | subtract id task => exact absurd (.subtract hpc) (hterminal _ _)
  | storeMaxid id => exact absurd (.storeMaxid hpc) (hterminal _ _)
  | out => rfl
  | test id => simp [hpc, Pc.read] at hstuck
  | loadStart id => simp [hpc, Pc.read] at hstuck
  | testMaxid => simp [hpc, Pc.read] at hstuck
  | loadMaxid => simp [hpc, Pc.read] at hstuck
  | findMax k largest => simp [hpc, Pc.read] at hstuck
  | compare k largest ntask => simp [hpc, Pc.read] at hstuck
  | loadNtask id => simp [hpc, Pc.read] at hstuck
  | compareMaxid id => simp [hpc, Pc.read] at hstuck

theorem works_of_out (hinv : Inv s) (hout : ∀ w, s.pc w = .out) : s.works = [] := by
  refine List.flatMap_eq_nil_iff.mpr fun id _ => ?_
  by_cases hid : id < loop.sched.nw
  · have hknows := hinv.knows ⟨id, hid⟩
    rw [hout] at hknows
    exact hknows
  · exact hinv.rest id (by omega)

/-- When all workers are out the calls of the loop have been made and their actions performed. -/
theorem complete (hready : Ready loop.sched) (hrun : History loop value evs s) (hout : ∀ w, s.pc w = .out) :
    ((calls loop evs).flatMap fun p => p.2.calls).Perm loop.sched.works ∧
      ((evs.flatMap Event.acts).map Prod.snd).Perm ((calls loop evs).flatMap fun p => loop.body p.2) := by
  have hcalls := calls_perm hready hrun
  rw [works_of_out (inv_of_history hready hrun) hout, List.append_nil] at hcalls
  refine ⟨hcalls, ?_⟩
  have hperm : (evs.flatMap Event.acts).Perm ((calls loop evs).flatMap fun p => (loop.body p.2).map fun a => (p.1, a)) := by
    refine Farm.perm_of_ofWorker_eq fun w => ?_
    have hacts := acts_append_todo hready hrun w
    rw [hout] at hacts
    rw [Interleaving.ofWorker_flatMap, ← hacts]
    simp [Pc.todo]
  refine (hperm.map Prod.snd).trans (List.Perm.of_eq ?_)
  simp [List.map_flatMap, Function.comp_def]

end ParallelWatermark.FastFlow.ParallelFor.Passive
