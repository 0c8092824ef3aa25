import Mathlib.Tactic.Common

/-!
# Positions in a flat buffer

A position with several coordinates is laid out digit by digit: `x + w * n` puts the digit `x < w`
below the position `n` made of the other coordinates.
-/

namespace Buffer

variable {w n k x x' n' : Nat}

theorem digit_lt (hx : x < w) (hn : n < k) : x + w * n < w * k :=
  calc x + w * n < w + w * n := by omega
    _ = w * (n + 1) := by rw [Nat.mul_add, Nat.mul_one, Nat.add_comm]
    _ ≤ w * k := Nat.mul_le_mul_left w hn

theorem digit_injective (hx : x < w) (hx' : x' < w) (heq : x + w * n = x' + w * n') :
    x = x' ∧ n = n' := by
  have hlow : x = x' := by
    have hmod := congrArg (· % w) heq
    simpa [Nat.add_mul_mod_self_left, Nat.mod_eq_of_lt hx, Nat.mod_eq_of_lt hx'] using hmod
  subst hlow
  exact ⟨rfl, Nat.eq_of_mul_eq_mul_left (by omega) (Nat.add_left_cancel heq)⟩

/-! ### A grid of positions, row by row -/

variable {cols rows stride c r : Nat}

theorem grid_le_last (hc : c < cols) (hr : r < rows) :
    c + r * stride ≤ (cols - 1) + (rows - 1) * stride :=
  Nat.add_le_add (by omega) (Nat.mul_le_mul_right stride (by omega))

/-- A grid lies within a bound exactly if it is empty or its last position does. -/
theorem forall_grid_lt_iff : (∀ c < cols, ∀ r < rows, c + r * stride < n) ↔
    cols = 0 ∨ rows = 0 ∨ (cols - 1) + (rows - 1) * stride < n := by
  constructor
  · intro hall
    by_cases hempty : cols = 0 ∨ rows = 0
    · exact hempty.imp_right Or.inl
    · exact Or.inr (Or.inr (hall (cols - 1) (by omega) (rows - 1) (by omega)))
  · intro hlast c hc r hr
    have hle := @grid_le_last cols rows stride c r hc hr
    omega

end Buffer
