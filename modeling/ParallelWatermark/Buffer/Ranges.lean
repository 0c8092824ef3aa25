import Mathlib.Data.List.Count
import Mathlib.Tactic.Common

/-!
# Cutting an interval into ranges

`Cuts n calls` says that `calls` is a partition of `[0, n)` into consecutive non-empty ranges
`[start, stop)`, listed in any order: what a parallel loop may hand to its body.
-/

namespace Buffer

/-- Consecutive non-empty ranges from `lo` up to `hi`, in order. -/
inductive Consecutive : Nat → Nat → List (Nat × Nat) → Prop
  | nil (n : Nat) : Consecutive n n []
  | cons {lo mid hi : Nat} {ranges : List (Nat × Nat)} (hlt : lo < mid)
      (hrest : Consecutive mid hi ranges) :
      Consecutive lo hi ((lo, mid) :: ranges)

def Cuts (n : Nat) (calls : List (Nat × Nat)) : Prop :=
  ∃ ranges, Consecutive 0 n ranges ∧ calls.Perm ranges

namespace Consecutive

variable {lo hi : Nat} {ranges : List (Nat × Nat)} {call : Nat × Nat} {i : Nat}

theorem le (hranges : Consecutive lo hi ranges) : lo ≤ hi := by
  induction hranges with
  | nil n => exact Nat.le_refl n
  | cons hlt _ ih => omega

theorem bounds (hranges : Consecutive lo hi ranges) (hcall : call ∈ ranges) :
    lo ≤ call.1 ∧ call.1 < call.2 ∧ call.2 ≤ hi := by
  induction hranges with
  | nil n => simp at hcall
  | cons hlt hrest ih =>
    rcases List.mem_cons.mp hcall with rfl | hcall
    · exact ⟨Nat.le_refl _, hlt, hrest.le⟩
    · have := ih hcall
      omega

theorem exists_call (hranges : Consecutive lo hi ranges) (hlo : lo ≤ i) (hhi : i < hi) :
    ∃ call ∈ ranges, call.1 ≤ i ∧ i < call.2 := by
  induction hranges with
  | nil n => omega
  | @cons lo mid hi ranges hlt hrest ih =>
    by_cases hmid : i < mid
    · exact ⟨(lo, mid), List.mem_cons_self, hlo, hmid⟩
    · obtain ⟨call, hcall, hin⟩ := ih (by omega) hhi
      exact ⟨call, List.mem_cons_of_mem _ hcall, hin⟩

theorem pairwise (hranges : Consecutive lo hi ranges) : ranges.Pairwise fun call call' => call.2 ≤ call'.1 := by
  induction hranges with
  | nil n => exact .nil
  | cons hlt hrest ih => exact .cons (fun call hcall => (hrest.bounds hcall).1) ih

/-- If a list made for a range has only its numbers in it, a number occurs as often as in the list
made for its range. -/
theorem count_flatMap {f : Nat × Nat → List Nat} (hf : ∀ call, ∀ i ∈ f call, call.1 ≤ i ∧ i < call.2)
    (hranges : Consecutive lo hi ranges) (hcall : call ∈ ranges) (hlo : call.1 ≤ i)
    (hhi : i < call.2) :
    (ranges.flatMap f).count i = (f call).count i := by
  induction hranges with
  | nil n => simp at hcall
  | @cons lo mid hi ranges hlt hrest ih =>
    rw [List.flatMap_cons, List.count_append]
    rcases List.mem_cons.mp hcall with rfl | hcall
    · have hnone : (ranges.flatMap f).count i = 0 := by
        rw [List.count_eq_zero, List.mem_flatMap]
        intro hother
        obtain ⟨call, hcall, hi⟩ := hother
        have hlater := hrest.bounds hcall
        have hin := hf call i hi
        simp only at hhi
        omega
      omega
    · have hnone : (f (lo, mid)).count i = 0 := by
        rw [List.count_eq_zero]
        intro hi
        have hlater := hrest.bounds hcall
        have hin := hf (lo, mid) i hi
        simp only at hin
        omega
      rw [ih hcall, hnone, Nat.zero_add]

end Consecutive

namespace Cuts

variable {n : Nat} {calls : List (Nat × Nat)} {call : Nat × Nat} {i : Nat}

theorem bounds (hcuts : Cuts n calls) (hcall : call ∈ calls) : call.1 < call.2 ∧ call.2 ≤ n := by
  obtain ⟨ranges, hranges, hperm⟩ := hcuts
  exact (hranges.bounds (hperm.mem_iff.mp hcall)).2

theorem exists_call (hcuts : Cuts n calls) (hi : i < n) :
    ∃ call ∈ calls, call.1 ≤ i ∧ i < call.2 := by
  obtain ⟨ranges, hranges, hperm⟩ := hcuts
  obtain ⟨call, hcall, hin⟩ := hranges.exists_call (Nat.zero_le i) hi
  exact ⟨call, hperm.mem_iff.mpr hcall, hin⟩

/-- The ranges lie apart. -/
theorem pairwise (hcuts : Cuts n calls) : calls.Pairwise fun call call' => call.2 ≤ call'.1 ∨ call'.2 ≤ call.1 := by
  obtain ⟨ranges, hranges, hperm⟩ := hcuts
  refine (hperm.pairwise_iff fun h => Or.symm h).mpr ?_
  exact hranges.pairwise.imp Or.inl

theorem count_flatMap {f : Nat × Nat → List Nat} (hf : ∀ call, ∀ i ∈ f call, call.1 ≤ i ∧ i < call.2)
    (hcuts : Cuts n calls) (hcall : call ∈ calls) (hlo : call.1 ≤ i) (hhi : i < call.2) :
    (calls.flatMap f).count i = (f call).count i := by
  obtain ⟨ranges, hranges, hperm⟩ := hcuts
  rw [(hperm.flatMap_right f).count_eq]
  exact hranges.count_flatMap hf (hperm.mem_iff.mp hcall) hlo hhi

end Cuts

end Buffer
