import Mathlib.Logic.Function.Basic
import Mathlib.Tactic.Common
import ParallelWatermark.Process.Channel

/-!
# Circular buffers

The slots of a buffer, taken round and round, hold the items of a log from the first that has not been
taken to the last that has been pushed. The other slots are empty.
-/

namespace Process

variable {α : Type} {size : Nat} {buf : Nat → Option α} {l : Log α} {a : α}

/-- The slots `buf`, of which there are `size`, hold the items of `l`. -/
def Circular (size : Nat) (buf : Nat → Option α) (l : Log α) : Prop :=
  ∀ k, l.taken ≤ k → k < l.taken + size → buf (k % size) = l.pushed[k]?

namespace Circular

/-- Within one round no two items have the same slot. -/
theorem eq_of_mod_eq {n j k : Nat} (hj : n ≤ j) (hj' : j < n + size) (hk : n ≤ k) (hk' : k < n + size)
    (hmod : j % size = k % size) : j = k := by
  wlog hle : j ≤ k generalizing j k
  · exact (this hk hk' hj hj' hmod.symm (Nat.le_of_not_le hle)).symm
  · have hdvd : size ∣ k - j := Nat.dvd_of_mod_eq_zero (Nat.sub_mod_eq_zero_of_mod_eq hmod.symm)
    have := Nat.eq_zero_of_dvd_of_lt hdvd (by omega)
    omega

theorem start (size : Nat) : Circular size (fun _ => none) (Log.empty : Log α) :=
  fun k _ _ => by simp [Log.empty]

/-- The slot that is read next. -/
theorem front (hsize : 0 < size) (hholds : Circular size buf l) : buf (l.taken % size) = l.pushed[l.taken]? :=
  hholds l.taken (Nat.le_refl _) (by omega)

/-- The slot that is written next is empty as long as there is room. -/
theorem back (hsize : 0 < size) (hholds : Circular size buf l) (hwithin : l.Within (some size)) :
    (buf (l.pushed.length % size)).isNone = true ↔ l.pushed.length < l.taken + size := by
  have hle := hwithin.pushed_le size rfl
  have htaken := hwithin.taken_le
  constructor
  · intro hnone
    by_contra hfull
    have heq : l.pushed.length = l.taken + size := by omega
    rw [heq, Nat.add_mod_right, hholds.front hsize, List.getElem?_eq_getElem (by omega)] at hnone
    simp at hnone
  · intro hroom
    rw [hholds _ htaken hroom]
    simp

theorem push (hholds : Circular size buf l) (htaken : l.taken ≤ l.pushed.length)
    (hroom : l.pushed.length < l.taken + size) :
    Circular size (Function.update buf (l.pushed.length % size) (some a)) (l.push a) := by
  intro k hk hk'
  simp only [Log.push] at hk hk' ⊢
  by_cases hslot : k % size = l.pushed.length % size
  · obtain rfl := eq_of_mod_eq hk hk' htaken hroom hslot
    rw [Function.update_self, List.getElem?_append_right (Nat.le_refl _), Nat.sub_self, List.getElem?_cons_zero]
  · have hne : k ≠ l.pushed.length := fun h => hslot (by rw [h])
    rw [Function.update_of_ne hslot, hholds k hk hk']
    rcases Nat.lt_or_ge k l.pushed.length with hlt | hge
    · rw [List.getElem?_append_left hlt]
    · rw [List.getElem?_eq_none hge, List.getElem?_eq_none]
      simp
      omega

theorem take (hsize : 0 < size) (hholds : Circular size buf l) (hle : l.pushed.length ≤ l.taken + size) :
    Circular size (Function.update buf (l.taken % size) none) l.take := by
  intro k hk hk'
  simp only [Log.take] at hk hk' ⊢
  by_cases hslot : k % size = l.taken % size
  · -- The slot that has been emptied is the last of the next round.
    have hlast : k = l.taken + size := by
      by_contra hne
      have := eq_of_mod_eq (show l.taken ≤ k by omega) (by omega) (Nat.le_refl _) (by omega) hslot
      omega
    rw [hslot, Function.update_self, List.getElem?_eq_none (by omega)]
  · rw [Function.update_of_ne hslot]
    refine hholds k (by omega) ?_
    have : k ≠ l.taken + size := fun h => hslot (by rw [h, Nat.add_mod_right])
    omega

end Circular

end Process
