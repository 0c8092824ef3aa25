import Mathlib.Data.List.Flatten
import ParallelWatermark.Buffer.Strides
import ParallelWatermark.FastFlow.ParallelFor

/-!
# The table that `setloop` fills

Each worker that will be started has an entry, the entries cut the loop into consecutive ranges, and
the count of an entry is the number of tasks its range has room for. Where one task is left over after
the division the last entry takes it in: with a count one higher, or, if that count was one, with all
tasks made twice as large.
-/

namespace ParallelWatermark.FastFlow.ParallelFor

open Buffer

/-! ### The numbers of tasks -/

/-- The quotient rounded up. -/
def ceilDiv (a b : Int) : Int := -(-a / b)

theorem ceilDiv_spec {b : Int} (a : Int) (hb : 0 < b) : (ceilDiv a b - 1) * b < a ∧ a ≤ ceilDiv a b * b := by
  have hdiv := Int.mul_ediv_add_emod (-a) b
  have hnonneg := Int.emod_nonneg (-a) hb.ne'
  have hlt := Int.emod_lt_of_pos (-a) hb
  have hmul : b * (-a / b) = -(ceilDiv a b * b) := by
    simp only [ceilDiv]
    ring
  have hsub : (ceilDiv a b - 1) * b = ceilDiv a b * b - b := by ring
  constructor <;> linarith

theorem ceilDiv_pos {a b : Int} (ha : 0 < a) (hb : 0 < b) : 0 < ceilDiv a b := by
  have hspec := (ceilDiv_spec a hb).2
  by_contra hneg
  have : ceilDiv a b * b ≤ 0 := Int.mul_nonpos_of_nonpos_of_nonneg (by omega) hb.le
  omega

theorem ceilDiv_nonneg {a b : Int} (ha : 0 ≤ a) (hb : 0 < b) : 0 ≤ ceilDiv a b := by
  rcases ha.eq_or_lt with rfl | hpos
  · simp [ceilDiv]
  · exact (ceilDiv_pos hpos hb).le

theorem ceilDiv_le {a b : Int} (ha : 0 ≤ a) (hb : 0 < b) : ceilDiv a b ≤ a := by
  have hspec := (ceilDiv_spec a hb).1
  by_contra hmore
  have : a * 1 ≤ a * b := mul_le_mul_of_nonneg_left hb ha
  have : a * b ≤ (ceilDiv a b - 1) * b := mul_le_mul_of_nonneg_right (by omega) hb.le
  omega

/-- The sizes of a loop for which no `long` of the scheduler overflows and no double is inexact enough to
matter. -/
structure Small (start stop step chunk : Int) : Prop where
  start_gt : -2 ^ 53 < start
  stop_lt : stop < 2 ^ 53
  length_lt : stop - start < 2 ^ 53
  step_lt : step < 2 ^ 53
  task_lt : |chunk| * step < 2 ^ 53

section Small

variable {start stop step chunk : Int} (hsmall : Small start stop step chunk) (hstep : 0 < step) (hle : start ≤ stop)
include hsmall hstep hle

theorem lrintCeil_length : lrintCeil (stop - start) step = ceilDiv (stop - start) step :=
  Double.ceil_div (by omega) hsmall.length_lt hstep hsmall.step_lt

theorem lrintCeil_tasks {grain : Int} (hgrain : 0 < grain) (habs : grain = |chunk|) :
    lrintCeil (ceilDiv (stop - start) step) grain = ceilDiv (ceilDiv (stop - start) step) grain := by
  have hcount := ceilDiv_le (show 0 ≤ stop - start by omega) hstep
  have hlength := hsmall.length_lt
  have htask := hsmall.task_lt
  rw [← habs] at htask
  have : grain * 1 ≤ grain * step := mul_le_mul_of_nonneg_left hstep hgrain.le
  exact Double.ceil_div (ceilDiv_nonneg (by omega) hstep) (by omega) hgrain (by omega)

end Small

/-- The tasks that an entry still has to give, read off its range. -/
def workOf (step endchunk : Int) (d : DataPair) : List (Int × Int) := pieces step endchunk d.task.stop d.task.start

/-! ### Entries that cut a loop -/

section Entries

variable {step chunk hi : Int} {data : Table}

/-- An entry with as many tasks as its count says, the last of them with fewer indexes perhaps. -/
structure EntryOk (step chunk hi : Int) (d : DataPair) : Prop where
  count : 0 < d.ntask
  more : d.task.start + (d.ntask - 1) * chunk * step < d.task.stop
  enough : d.task.stop ≤ d.task.start + d.ntask * chunk * step
  le : d.task.stop ≤ hi
  last : step ∣ d.task.stop - 1 - d.task.start ∨ d.task.stop = hi

theorem EntryOk.walks {d : DataPair} (hstep : 0 < step) (hchunk : 0 < chunk) (hok : EntryOk step chunk hi d) :
    ∃ next, Walks step hi d.task.start (workOf step ((chunk - 1) * step + 1) d) next ∧
      ((workOf step ((chunk - 1) * step + 1) d).length : Int) = d.ntask ∧ d.task.stop ≤ next ∧
      (step ∣ d.task.stop - 1 - d.task.start → next = d.task.stop - 1 + step) := by
  obtain ⟨n, hn⟩ := Int.eq_ofNat_of_zero_le (show 0 ≤ d.ntask - 1 by have := hok.count; omega)
  have hmore := hok.more
  have henough := hok.enough
  rw [hn] at hmore
  rw [show d.ntask = n + 1 by omega] at henough
  obtain ⟨next, hwalks, hlength, hend, hdvd⟩ := walks_pieces hstep hchunk hok.le n hmore henough hok.last
  refine ⟨next, hwalks, ?_, hend, hdvd⟩
  rw [workOf, hlength]
  push_cast
  omega

/-- The first `n + 1` entries cut the loop from `lo`, and there are no others. -/
structure Entries (step chunk lo hi : Int) (data : Table) (n : Nat) : Prop where
  ok : ∀ i ≤ n, EntryOk step chunk hi (data i)
  first : (data 0).task.start = lo
  link : ∀ i < n, step ∣ (data i).task.stop - 1 - (data i).task.start ∧
    (data (i + 1)).task.start = (data i).task.stop - 1 + step
  atEnd : (data n).task.stop = hi ∨
    step ∣ (data n).task.stop - 1 - (data n).task.start ∧ hi ≤ (data n).task.stop - 1 + step
  rest : ∀ i, n < i → data i = ⟨0, ⟨0, 0⟩⟩

/-- Entries that begin where the ones before them end cut the loop between them. -/
theorem Entries.cut {lo : Int} {n : Nat} (hstep : 0 < step) (hchunk : 0 < chunk)
    (hentries : Entries step chunk lo hi data n) :
    Cut step lo hi ((List.range (n + 1)).flatMap fun i => workOf step ((chunk - 1) * step + 1) (data i)) := by
  obtain ⟨hok, rfl, hlink, hend, -⟩ := hentries
  have hwalks : ∀ m ≤ n, Walks step hi (data 0).task.start
      ((List.range m).flatMap fun i => workOf step ((chunk - 1) * step + 1) (data i)) (data m).task.start := by
    intro m hm
    induction m with
    | zero => exact .nil _
    | succ m ih =>
      obtain ⟨next, hentry, -, -, hnext⟩ := (hok m (by omega)).walks hstep hchunk
      obtain ⟨hdvd, hstart⟩ := hlink m (by omega)
      rw [List.range_succ, List.flatMap_append, hstart, ← hnext hdvd]
      exact (ih (by omega)).append (by simpa using hentry)
  obtain ⟨next, hentry, -, hstop, hnext⟩ := (hok n (Nat.le_refl n)).walks hstep hchunk
  refine ⟨next, ?_, ?_⟩
  · rw [List.range_succ, List.flatMap_append]
    exact (hwalks n (Nat.le_refl n)).append (by simpa using hentry)
  · rcases hend with hend | ⟨hdvd, hend⟩
    · exact hend ▸ hstop
    · exact (hnext hdvd) ▸ hend

theorem workOf_of_ge {width : Int} {d : DataPair} (hle : d.task.stop ≤ d.task.start) : workOf step width d = [] :=
  pieces_of_le hle

theorem Entries.length_workOf {lo : Int} {n : Nat} (hstep : 0 < step) (hchunk : 0 < chunk)
    (hentries : Entries step chunk lo hi data n) (i : Nat) :
    ((workOf step ((chunk - 1) * step + 1) (data i)).length : Int) = (data i).ntask := by
  by_cases hi : i ≤ n
  · obtain ⟨next, -, hlength, -⟩ := (hentries.ok i hi).walks hstep hchunk
    exact hlength
  · rw [hentries.rest i (by omega)]
    simp [workOf_of_ge]

theorem flatMap_range_of_nil {χ : Type*} {f : Nat → List χ} {n m : Nat} (hnil : ∀ i, n ≤ i → f i = []) (hle : n ≤ m) :
    (List.range m).flatMap f = (List.range n).flatMap f := by
  induction m, hle using Nat.le_induction with
  | base => rfl
  | succ m hle ih => simp [List.range_succ, List.flatMap_append, ih, hnil m hle]

end Entries

/-! ### Dynamic scheduling -/

/-- The number of tasks given to the entries before `i`. -/
def given (ntxw r : Int) (i : Nat) : Int := i * ntxw + min (i : Int) (if 1 < r then r else 0)

theorem given_succ (ntxw r : Int) (i : Nat) :
    given ntxw r (i + 1) = given ntxw r i + (ntxw + if 1 < r ∧ (i : Int) < r then 1 else 0) := by
  have hmul : ((i + 1 : Nat) : Int) * ntxw = i * ntxw + ntxw := by
    push_cast
    ring
  simp only [given, hmul]
  push_cast
  split_ifs <;> omega

section Dynamic

variable {start stop step chunk ntxw r tasks : Int}

/-- What the loop of `init_data` has done when it comes to entry `m`. -/
structure Filled (start stop step chunk ntxw r tasks : Int) (m : Nat) (f : Filling) : Prop where
  left_eq : f.totalnumtasks = max (tasks - given ntxw r m) 0
  start_eq : given ntxw r m < tasks → f.start = start + given ntxw r m * chunk * step
  entry_eq : ∀ i < m, given ntxw r i < tasks → f.data i = ⟨given ntxw r (i + 1) - given ntxw r i,
    ⟨start + given ntxw r i * chunk * step, min (start + given ntxw r (i + 1) * chunk * step - step + 1) stop⟩⟩
  rest_eq : ∀ i, m ≤ i ∨ tasks ≤ given ntxw r i → f.data i = ⟨0, ⟨0, 0⟩⟩

theorem filled (hstep : 0 < step) (hntxw : 0 ≤ ntxw) (htasks : 0 ≤ tasks)
    (hbefore : ∀ k < tasks, start + k * chunk * step < stop) (m : Nat)
    (hfits : ∀ i < m, given ntxw r i < tasks → given ntxw r (i + 1) ≤ tasks) :
    Filled start stop step chunk ntxw r tasks m
      ((List.range m).foldl (fillEntry stop step chunk ntxw r) ⟨Table.empty, start, tasks⟩) := by
  induction m with
  | zero =>
    have hzero : given ntxw r 0 = 0 := by
      simp only [given]
      split_ifs <;> simp
      omega
    exact ⟨by simp [hzero, htasks], by simp [hzero], fun i hi => absurd hi (by omega), fun _ _ => rfl⟩
  | succ m ih =>
    obtain ⟨htotal', hstart, hentry, hrest⟩ := ih fun i hi => hfits i (by omega)
    rw [List.range_succ, List.foldl_append, List.foldl_cons, List.foldl_nil]
    generalize (List.range m).foldl (fillEntry stop step chunk ntxw r) ⟨Table.empty, start, tasks⟩ = f at *
    have hsucc := given_succ ntxw r m
    by_cases hleft : given ntxw r m < tasks
    · have hopen : 0 < f.totalnumtasks := by omega
      have hend := hfits m (by omega) hleft
      have hstop := hbefore (given ntxw r m) hleft
      rw [fillEntry, if_pos hopen]
      simp only [hstart hleft]
      generalize ht : (ntxw + if 1 < r ∧ (m : Int) < r then 1 else 0) = t at *
      have hlast : start + given ntxw r m * chunk * step + (t * chunk - 1) * step + 1 =
          start + given ntxw r (m + 1) * chunk * step - step + 1 := by
        rw [hsucc]
        ring
      rw [hlast]
      have hmin : (if start + given ntxw r (m + 1) * chunk * step - step + 1 < stop then
          start + given ntxw r (m + 1) * chunk * step - step + 1 else stop) =
          min (start + given ntxw r (m + 1) * chunk * step - step + 1) stop := by
        split_ifs <;> omega
      rw [hmin]
      refine ⟨by simp only; omega, fun hlt => ?_, fun i hi hlt => ?_, fun i hi => ?_⟩
      · have := hbefore _ hlt
        simp only
        omega
      · by_cases him : i = m
        · subst him
          simp only [Function.update_self]
          rw [show given ntxw r (i + 1) - given ntxw r i = t by omega]
        · simp only [Function.update_of_ne him]
          exact hentry i (by omega) hlt
      · have him : i ≠ m := by
          rintro rfl
          omega
        simp only [Function.update_of_ne him]
        exact hrest i (by omega)
    · have hdone : ¬ 0 < f.totalnumtasks := by omega
      have hmono : given ntxw r m ≤ given ntxw r (m + 1) := by
        rw [hsucc]
        split_ifs <;> omega
      rw [fillEntry, if_neg hdone]
      refine ⟨by omega, fun hlt => absurd hlt (by omega), fun i hi hlt => ?_, fun i hi => ?_⟩
      · exact hentry i (by
          by_contra hge
          have : i = m := by omega
          subst this
          exact hleft hlt) hlt
      · exact hrest i (by
          rcases hi with hi | hi
          · exact Or.inl (by omega)
          · exact Or.inr hi)

section Filled

variable {m : Nat} {f : Filling} (hfilled : Filled start stop step chunk ntxw r tasks m f) (hstep : 0 < step)
  (hntxw : 0 < ntxw) (hbefore : ∀ k < tasks, start + k * chunk * step < stop)
include hfilled hstep hntxw hbefore

theorem link_of_filled {i : Nat} (him : i + 1 < m) (hopen : given ntxw r (i + 1) < tasks) :
    step ∣ (f.data i).task.stop - 1 - (f.data i).task.start ∧
      (f.data (i + 1)).task.start = (f.data i).task.stop - 1 + step := by
  have hopen' : given ntxw r i < tasks := by
    have hsucc := given_succ ntxw r i
    split_ifs at hsucc <;> omega
  have hprev := hbefore (given ntxw r (i + 1)) hopen
  rw [hfilled.entry_eq i (by omega) hopen', hfilled.entry_eq (i + 1) him hopen]
  simp only [min_eq_left (show start + given ntxw r (i + 1) * chunk * step - step + 1 ≤ stop by omega)]
  exact ⟨⟨(given ntxw r (i + 1) - given ntxw r i) * chunk - 1, by ring⟩, by ring⟩

variable (hchunk : 0 < chunk)
include hchunk

theorem entryOk_of_filled {i : Nat} (him : i < m) (hopen : given ntxw r i < tasks)
    (hfits : given ntxw r (i + 1) ≤ tasks) : EntryOk step chunk stop (f.data i) := by
  rw [hfilled.entry_eq i him hopen]
  have hcount : 0 < given ntxw r (i + 1) - given ntxw r i := by
    rw [given_succ]
    split_ifs <;> omega
  have hwide : step ≤ chunk * step := le_mul_of_one_le_left hstep.le hchunk
  have hprev := hbefore (given ntxw r (i + 1) - 1) (by omega)
  have hexpand : (given ntxw r (i + 1) - 1) * chunk * step = given ntxw r (i + 1) * chunk * step - chunk * step := by
    ring
  have hshift : ∀ k, start + given ntxw r i * chunk * step + (given ntxw r (i + 1) - given ntxw r i - k) * chunk * step =
      start + (given ntxw r (i + 1) - k) * chunk * step := fun k => by ring
  refine ⟨hcount, ?_, ?_, min_le_right _ _, ?_⟩
  · simp only [hshift 1]
    omega
  · have hall := hshift 0
    simp only [sub_zero] at hall
    simp only [hall]
    omega
  · rcases le_total (start + given ntxw r (i + 1) * chunk * step - step + 1) stop with hle | hle
    · refine Or.inl ?_
      simp only [min_eq_left hle]
      exact ⟨(given ntxw r (i + 1) - given ntxw r i) * chunk - 1, by ring⟩
    · exact Or.inr (min_eq_right hle)

end Filled

end Dynamic

end ParallelWatermark.FastFlow.ParallelFor
