import ParallelWatermark.Proof.FastFlow.ParallelFor.InitData

/-!
# What `init_data_static` leaves

Static scheduling with chunk 0. Every worker has one task, of the indexes divided by the workers, or one
more for the first of them.
-/

namespace ParallelWatermark.FastFlow.ParallelFor

open Buffer

/-- The number of indexes in the entries before `i`. -/
def shared (q r : Int) (i : Nat) : Int := i * q + min (i : Int) r

theorem shared_succ (q r : Int) (i : Nat) :
    shared q r (i + 1) = shared q r i + (q + if (i : Int) < r then 1 else 0) := by
  have hmul : ((i + 1 : Nat) : Int) * q = i * q + q := by
    push_cast
    ring
  simp only [shared, hmul]
  push_cast
  split_ifs <;> omega

section InitDataStatic

variable {start stop step q r : Int} {nw : Nat}

/-- What the loop of `init_data_static` has done when it comes to entry `m`. -/
structure FilledStatic (start step q r : Int) (m : Nat) (f : Filling) : Prop where
  start_eq : f.start = start + shared q r m * step
  entry_eq : ∀ i < m, f.data i = ⟨1, ⟨start + shared q r i * step, start + shared q r (i + 1) * step - step + 1⟩⟩
  rest_eq : ∀ i, m ≤ i → f.data i = ⟨0, ⟨0, 0⟩⟩

theorem filledStatic (tasks : Int) (m : Nat)
    (hwithin : ∀ i < m, start + (shared q r (i + 1) - 1) * step < stop) (hr : 0 ≤ r) :
    FilledStatic start step q r m
      ((List.range m).foldl (fillStatic stop step q r) ⟨Table.empty, start, tasks⟩) := by
  induction m with
  | zero => exact ⟨by simp [shared, hr], fun i hi => absurd hi (by omega), fun _ _ => rfl⟩
  | succ m ih =>
    obtain ⟨hstart, hentry, hrest⟩ := ih fun i hi => hwithin i (by omega)
    have hstop := hwithin m (by omega)
    rw [List.range_succ, List.foldl_append, List.foldl_cons, List.foldl_nil]
    generalize (List.range m).foldl (fillStatic stop step q r) ⟨Table.empty, start, tasks⟩ = f at *
    have hlast : f.start + (q - 1) * step + 1 + (if (m : Int) < r then step else 0) =
        start + shared q r (m + 1) * step - step + 1 := by
      rw [hstart, shared_succ]
      split_ifs <;> ring
    have hprev : (shared q r (m + 1) - 1) * step = shared q r (m + 1) * step - step := by ring
    have hmin : (if start + shared q r (m + 1) * step - step + 1 < stop then
        start + shared q r (m + 1) * step - step + 1 else stop) = start + shared q r (m + 1) * step - step + 1 := by
      split_ifs <;> omega
    simp only [fillStatic, hlast, hmin]
    refine ⟨by simp only; ring, fun i hi => ?_, fun i hi => ?_⟩
    · by_cases him : i = m
      · subst him
        simp only [Function.update_self, hstart]
      · simp only [Function.update_of_ne him]
        exact hentry i (by omega)
    · simp only [Function.update_of_ne (show i ≠ m by omega)]
      exact hrest i (by omega)

/-- The one task of an entry with `t` indexes, if there are any. -/
theorem walks_workOf_static {chunk lo hi : Int} {d : DataPair} (hstep : 0 < step) {t : Int} (ht : 0 ≤ t) (hle : t ≤ chunk)
    (hd : d.task = ⟨lo, lo + t * step - step + 1⟩) (hwithin : 0 < t → d.task.stop ≤ hi) :
    Walks step hi lo (workOf step ((chunk - 1) * step + 1) d) (lo + t * step) ∧
      (workOf step ((chunk - 1) * step + 1) d).length ≤ 1 := by
  rcases ht.eq_or_lt with rfl | hpos
  · rw [workOf_of_ge (by rw [hd]; simp only; omega)]
    simpa using Walks.nil lo
  · have hmul : (t - 1) * step ≤ (chunk - 1) * step := mul_le_mul_of_nonneg_right (by omega) hstep.le
    have hnonneg : 0 ≤ (t - 1) * step := mul_nonneg (by omega) hstep.le
    have hexpand : (t - 1) * step = t * step - step := by ring
    have hstop := hwithin hpos
    rw [hd] at hstop
    simp only at hstop
    rw [workOf, hd]
    simp only
    rw [pieces_of_lt hstep (by omega) (by omega), min_eq_right (by omega), pieces_of_le (by omega)]
    refine ⟨.cons (by omega) hstop (Or.inl ⟨t - 1, by linarith⟩) ?_, Nat.le_refl _⟩
    rw [show lo + t * step - step + 1 - 1 + step = lo + t * step by ring]
    exact .nil _

theorem shared_mono (hq : 0 ≤ q) : Monotone (shared q r) := by
  refine monotone_nat_of_le_succ fun i => ?_
  rw [shared_succ]
  split_ifs <;> omega

section FilledStatic

variable {chunk : Int} {m : Nat} {f : Filling} (hfilled : FilledStatic start step q r m f) (hstep : 0 < step)
  (hq : 0 ≤ q) (hchunk : ∀ i < m, q + (if (i : Int) < r then 1 else 0) ≤ chunk)
  (hwithin : ∀ i < m, start + (shared q r (i + 1) - 1) * step < stop)
include hfilled hstep hq hchunk hwithin

theorem FilledStatic.walks_workOf {i : Nat} (hi : i < m) :
    Walks step stop (start + shared q r i * step) (workOf step ((chunk - 1) * step + 1) (f.data i))
      (start + shared q r (i + 1) * step) ∧ (workOf step ((chunk - 1) * step + 1) (f.data i)).length ≤ 1 := by
  have hle := hchunk i hi
  have hsucc := shared_succ q r i
  generalize ht : (q + if (i : Int) < r then 1 else 0) = t at hsucc hle
  have hstop := hwithin i hi
  have hprev : (shared q r (i + 1) - 1) * step = shared q r (i + 1) * step - step := by ring
  have hnext : start + shared q r (i + 1) * step = start + shared q r i * step + t * step := by
    rw [hsucc]
    ring
  rw [hnext]
  refine walks_workOf_static hstep (by split_ifs at ht <;> omega) hle ?_ fun _ => ?_
  · rw [hfilled.entry_eq i hi, hnext]
  · rw [hfilled.entry_eq i hi]
    simp only
    omega

theorem FilledStatic.walks (hr : 0 ≤ r) {k : Nat} (hk : k ≤ m) :
    Walks step stop start ((List.range k).flatMap fun i => workOf step ((chunk - 1) * step + 1) (f.data i))
      (start + shared q r k * step) := by
  induction k with
  | zero => simpa [shared, hr] using Walks.nil start
  | succ k ih =>
    have hentry := (hfilled.walks_workOf hstep hq hchunk hwithin hk).1
    rw [List.range_succ, List.flatMap_append]
    exact (ih (by omega)).append (by simpa using hentry)

/-- Where the entries have all indexes, they cut the loop. -/
theorem FilledStatic.tableOk {n : Nat} (hr : 0 ≤ r) (hpos : 0 < chunk) (hm : m = n + 1)
    (hall : stop ≤ start + shared q r m * step) : TableOk start stop step m ⟨f.data, chunk, m⟩ n := by
  subst hm
  have hones : ∀ i < n + 1, (f.data i).ntask = 1 := fun i hi => by rw [hfilled.entry_eq i hi]
  refine ⟨hpos, ⟨_, hfilled.walks hstep hq hchunk hwithin hr (Nat.le_refl _), hall⟩, fun i => ?_, fun i hi => ?_,
    fun i hi => ?_, ?_, Or.inl ⟨rfl, Nat.le_refl _⟩⟩
  · simp only
    by_cases hi : i < n + 1
    · rw [hones i hi]
      exact_mod_cast (hfilled.walks_workOf hstep hq hchunk hwithin hi).2
    · rw [hfilled.rest_eq i (by omega), workOf_of_ge (Int.le_refl _)]
      rfl
  · simp only [hones i (by omega)]
    decide
  · simp only [hfilled.rest_eq i (by omega)]
  · rw [Finset.sum_congr rfl fun i hi => hones i (Finset.mem_range.mp hi)]
    simp

end FilledStatic

/-- The quotient and the remainder that `init_data_static` divides the loop by. -/
theorem initDataEqually_eq {chunk : Int} (hsmall : Small start stop step chunk) (hstep : 0 < step) (hnw : 0 < nw) (hle : start ≤ stop)
    (hq : q = ceilDiv (stop - start) step / nw) (hr : r = ceilDiv (stop - start) step % nw) :
    initDataEqually nw start stop step =
      some ⟨((List.range nw).foldl (fillStatic stop step q r) ⟨Table.empty, start, nw⟩).data,
        if r ≠ 0 then q + 1 else q, nw⟩ := by
  have hnonneg := ceilDiv_nonneg (show 0 ≤ stop - start by omega) hstep
  have hcount := ceilDiv_le (show 0 ≤ stop - start by omega) hstep
  have hlength := hsmall.length_lt
  simp only [initDataEqually, lrintCeil_length hsmall hstep hle, Int.tdiv_eq_ediv_of_nonneg hnonneg, ← hq,
    Int.emod_eq_of_lt hnonneg (show ceilDiv (stop - start) step < 2 ^ 64 by omega), ← hr, if_neg hnw.ne']

theorem initDataEqually_ok {chunk : Int} (hsmall : Small start stop step chunk) (hstep : 0 < step) (hnw : 0 < nw)
    (hlt : start < stop) : ∃ init, initDataEqually nw start stop step = some init ∧
      TableOk start stop step nw init (nw - 1) ∧ init.totaltasks = nw ∧ (∀ i < nw, (init.data i).ntask = 1) ∧
      init.chunk = if ceilDiv (stop - start) step % nw ≠ 0 then ceilDiv (stop - start) step / nw + 1
        else ceilDiv (stop - start) step / nw := by
  have hpos := ceilDiv_pos (show 0 < stop - start by omega) hstep
  have hindexes := ceilDiv_spec (stop - start) hstep
  rw [initDataEqually_eq hsmall hstep hnw hlt.le rfl rfl]
  generalize ceilDiv (stop - start) step = numtasks at *
  have hdiv := Int.mul_ediv_add_emod numtasks nw
  have hr := Int.emod_nonneg numtasks (show (nw : Int) ≠ 0 by omega)
  have hless := Int.emod_lt_of_pos numtasks (show (0 : Int) < nw by omega)
  have hq := Int.ediv_nonneg hpos.le (show (0 : Int) ≤ nw by omega)
  have hpositive : 0 < if numtasks % nw ≠ 0 then numtasks / nw + 1 else numtasks / nw := by
    split_ifs with hrest
    · omega
    · by_contra hzero
      have heq : numtasks / nw = 0 := by omega
      rw [heq] at hdiv
      omega
  generalize numtasks / nw = q at *
  generalize numtasks % nw = r at *
  obtain ⟨n, rfl⟩ : ∃ n, nw = n + 1 := ⟨nw - 1, by omega⟩
  have hall : shared q r (n + 1) = numtasks := by
    rw [shared]
    omega
  have hwithin : ∀ i < n + 1, start + (shared q r (i + 1) - 1) * step < stop := by
    intro i hi
    have hle : shared q r (i + 1) ≤ numtasks := hall ▸ shared_mono hq (by omega)
    have : (shared q r (i + 1) - 1) * step ≤ (numtasks - 1) * step := mul_le_mul_of_nonneg_right (by omega) hstep.le
    omega
  have hchunk : ∀ i < n + 1, q + (if ((i : Nat) : Int) < r then 1 else 0) ≤ if r ≠ 0 then q + 1 else q := by
    intro i _
    split_ifs <;> omega
  have hfilled := filledStatic ((n + 1 : Nat) : Int) (n + 1) hwithin hr
  generalize (List.range (n + 1)).foldl (fillStatic stop step q r) ⟨Table.empty, start, ((n + 1 : Nat) : Int)⟩ = f at *
  have hstop : stop ≤ start + shared q r (n + 1) * step := by
    rw [hall]
    omega
  exact ⟨_, rfl, hfilled.tableOk hstep hq hchunk hwithin hr hpositive rfl hstop, rfl,
    fun i hi => congrArg DataPair.ntask (hfilled.entry_eq i hi), rfl⟩

end InitDataStatic

end ParallelWatermark.FastFlow.ParallelFor
