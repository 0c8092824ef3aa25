import Mathlib.Algebra.Order.Floor.Ring
import Mathlib.Data.Int.Log
import Mathlib.Data.Rat.Floor
import Mathlib.Tactic.Linarith
import Mathlib.Tactic.Ring

/-!
# Quotients of integers as doubles

Rational numbers rounded to the 53 bits of a double. Nothing here is said of overflow or of the numbers
too small for the exponent, since a quotient of integers of 64 bits is neither. A quotient of integers
below 2^53 may not be a double, but it lies on the same side of each integer as the double nearest to it,
and so rounding it up gives the same integer.
-/

namespace Double

/-- The nearest integer, of two such the even one. -/
def nearestInt (q : ℚ) : ℤ :=
  if 1 < 2 * Int.fract q ∨ 2 * Int.fract q = 1 ∧ ⌊q⌋ % 2 = 1 then ⌊q⌋ + 1 else ⌊q⌋

/-- The distance between the doubles around `q`. -/
def ulp (q : ℚ) : ℚ := 2 ^ (Int.log 2 |q| - 52)

/-- The nearest double. -/
def nearest (q : ℚ) : ℚ := nearestInt (q / ulp q) * ulp q

/-- The quotient of two integers that are converted to doubles. -/
def div (a b : ℤ) : ℚ := nearest (nearest a / nearest b)

/-! ### Rounding -/

theorem nearestInt_intCast (n : ℤ) : nearestInt n = n := by
  simp [nearestInt]

@[simp] theorem nearest_zero : nearest 0 = 0 := by
  simp [nearest, nearestInt]

@[simp] theorem zero_div (b : ℤ) : div 0 b = 0 := by
  simp [div]

theorem nearestInt_le {q : ℚ} {n : ℤ} (hle : q ≤ n) : nearestInt q ≤ n := by
  have hfloor : ⌊q⌋ ≤ n := Int.floor_le_iff.mpr (by linarith)
  rw [nearestInt]
  split_ifs with hup
  · -- Where it goes up there is a fraction.
    have hfract : 0 < Int.fract q := by
      rcases hup with hmore | ⟨hhalf, -⟩ <;> linarith
    have hlt : (⌊q⌋ : ℚ) < n := by
      have hq := Int.self_sub_floor q
      linarith
    exact Int.add_one_le_of_lt (by exact_mod_cast hlt)
  · exact hfloor

theorem sub_half_le_nearestInt (q : ℚ) : q - 1 / 2 ≤ nearestInt q := by
  have hfract := Int.self_sub_floor q
  rw [nearestInt]
  split_ifs with hup
  · have hlt := Int.fract_lt_one q
    push_cast
    linarith
  · have hle := not_lt.mp fun hmore => hup (Or.inl hmore)
    linarith

theorem ulp_pos (q : ℚ) : 0 < ulp q := zpow_pos (by norm_num) _

theorem ulp_mul_le {q : ℚ} (hq : 0 < q) : ulp q * 2 ^ 52 ≤ q := by
  have hlog := Int.zpow_log_le_self (b := 2) (by decide) hq
  have hexpand : ulp q * 2 ^ 52 = 2 ^ Int.log 2 q := by
    rw [ulp, abs_of_pos hq, ← zpow_natCast, ← zpow_add₀ (by norm_num)]
    congr 1
    push_cast
    ring
  rw [hexpand]
  exact_mod_cast hlog

/-- Below 2^53 the integers are multiples of the distance between doubles. -/
theorem exists_div_ulp {q : ℚ} (hpos : 0 < q) (hlt : q < 2 ^ 53) (n : ℤ) : ∃ m : ℤ, (n : ℚ) / ulp q = m := by
  have hlog : Int.log 2 q < 53 := (Int.lt_zpow_iff_log_lt (by decide) hpos).mp (by exact_mod_cast hlt)
  obtain ⟨k, hk⟩ := Int.eq_ofNat_of_zero_le (show 0 ≤ 52 - Int.log 2 q by omega)
  refine ⟨n * 2 ^ k, ?_⟩
  rw [ulp, abs_of_pos hpos, show Int.log 2 q - 52 = -(k : ℤ) by omega, zpow_neg, div_inv_eq_mul]
  push_cast
  rfl

/-- An integer below 2^53 is a double. -/
theorem nearest_intCast {n : ℤ} (hnonneg : 0 ≤ n) (hlt : n < 2 ^ 53) : nearest n = n := by
  rcases hnonneg.eq_or_lt with rfl | hpos
  · simp
  · have hposq : (0 : ℚ) < n := by exact_mod_cast hpos
    obtain ⟨m, hm⟩ := exists_div_ulp hposq (by exact_mod_cast hlt) n
    rw [nearest, hm, nearestInt_intCast, ← hm, div_mul_cancel₀ _ (ulp_pos _).ne']

theorem nearest_le {q : ℚ} {n : ℤ} (hpos : 0 < q) (hlt : q < 2 ^ 53) (hle : q ≤ n) : nearest q ≤ n := by
  have hulp := ulp_pos q
  obtain ⟨m, hm⟩ := exists_div_ulp hpos hlt n
  have hround : nearestInt (q / ulp q) ≤ m := nearestInt_le (hm ▸ div_le_div_of_nonneg_right hle hulp.le)
  calc nearest q ≤ m * ulp q := mul_le_mul_of_nonneg_right (by exact_mod_cast hround) hulp.le
    _ = n := by rw [← hm, div_mul_cancel₀ _ hulp.ne']

/-- Rounding takes away no more than one part in 2^53. -/
theorem le_nearest {q : ℚ} (hpos : 0 < q) : q * (2 ^ 53 - 1) ≤ nearest q * 2 ^ 53 := by
  have hulp := ulp_pos q
  have hround := mul_le_mul_of_nonneg_right (sub_half_le_nearestInt (q / ulp q)) hulp.le
  rw [sub_mul, div_mul_cancel₀ _ hulp.ne'] at hround
  have hsmall := ulp_mul_le hpos
  rw [nearest]
  linarith

/-! ### Quotients -/

section Quotient

variable {a b : ℤ} (hnonneg : 0 ≤ a) (hlt : a < 2 ^ 53) (hpos : 0 < b) (hltb : b < 2 ^ 53)
include hnonneg hlt hpos hltb

theorem div_eq : div a b = nearest (a / b) := by
  rw [div, nearest_intCast hnonneg hlt, nearest_intCast hpos.le hltb]

/-- The rounded quotient is on the same side of an integer as the exact one. -/
theorem div_le_iff (n : ℤ) : div a b ≤ n ↔ a ≤ n * b := by
  have hb : (0 : ℚ) < b := by exact_mod_cast hpos
  rw [div_eq hnonneg hlt hpos hltb]
  rcases hnonneg.eq_or_lt with rfl | hapos
  · have hzero : nearest ((0 : ℤ) / b) = 0 := by simp
    rw [hzero]
    constructor
    · intro hle
      exact mul_nonneg (by exact_mod_cast hle) hpos.le
    · intro hle
      exact_mod_cast nonneg_of_mul_nonneg_left hle hpos
  have hquotient : (0 : ℚ) < a / b := div_pos (by exact_mod_cast hapos) hb
  have hbound : (a : ℚ) / b < 2 ^ 53 := by
    have hone : (1 : ℚ) ≤ b := by exact_mod_cast hpos
    exact (div_le_self (by exact_mod_cast hnonneg) hone).trans_lt (by exact_mod_cast hlt)
  constructor
  · intro hle
    by_contra hmore
    -- The quotient exceeds `n` by `1 / b` at least, and rounding takes away less.
    have hcross : (n : ℚ) * b + 1 ≤ a := by exact_mod_cast not_le.mp hmore
    have hround := le_nearest hquotient
    have hsmall : (a : ℚ) < 2 ^ 53 := by exact_mod_cast hlt
    have hdiv : (a : ℚ) / b * b = a := div_mul_cancel₀ _ hb.ne'
    have hscaled : (a : ℚ) * (2 ^ 53 - 1) ≤ n * b * 2 ^ 53 := by
      calc (a : ℚ) * (2 ^ 53 - 1) = a / b * (2 ^ 53 - 1) * b := by rw [mul_right_comm, hdiv]
        _ ≤ nearest (a / b) * 2 ^ 53 * b := mul_le_mul_of_nonneg_right hround hb.le
        _ ≤ n * 2 ^ 53 * b := mul_le_mul_of_nonneg_right (mul_le_mul_of_nonneg_right hle (by norm_num)) hb.le
        _ = n * b * 2 ^ 53 := by ring
    linarith
  · intro hle
    exact nearest_le hquotient hbound ((div_le_iff₀ hb).mpr (by exact_mod_cast hle))

theorem ceil_div : ⌈div a b⌉ = -(-a / b) := by
  refine eq_of_forall_ge_iff fun n => ?_
  rw [Int.ceil_le, div_le_iff hnonneg hlt hpos hltb, neg_le, Int.le_ediv_iff_mul_le hpos, neg_mul, neg_le_neg_iff]

end Quotient

end Double
