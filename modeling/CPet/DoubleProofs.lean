import CPet.RoundingProofs
import Mathlib.Algebra.Order.Field.Power
import Mathlib.Data.Rat.Floor
import Mathlib.Tactic.Linarith
import Mathlib.Tactic.NormNum
import Mathlib.Tactic.Ring

/-! # Finite doubles as exact rationals

    A finite double is a significand of 53 bits and an exponent.  The larger a
    double, the coarser the grid it lies on: from `2 ^ 52` on doubles are
    integers, so rounding leaves them alone, and a bound far from the small
    ones is a bound on the double and on its rounding alike. -/

namespace CPetDouble

open CPetRounding

/-- A finite double, `mant * 2 ^ expo`.  The two zeros are one value. -/
structure Double where
  mant : ℤ
  expo : ℤ
  mant_lt : |mant| < 2 ^ 53
  expo_ge : -1074 ≤ expo
  expo_le : expo ≤ 971

/-- The number a double stands for. -/
def Double.value (v : Double) : ℚ := v.mant * 2 ^ v.expo

/-- The value rounded to the nearest hundredth. -/
def Double.toHundredth (v : Double) : ℚ := (roundHalfEven (100 * v.value) : ℚ) / 100

/-! ## Granularity -/

/-- **GRANULARITY**: from `2 ^ (k + 52)` on, doubles are multiples of `2 ^ k`. -/
theorem Double.exists_multiple {v : Double} {k : ℤ} (h : (2 : ℚ) ^ (k + 52) ≤ |v.value|) :
    ∃ z : ℤ, v.value = z * 2 ^ k := by
  have hpos : (0 : ℚ) < 2 ^ v.expo := zpow_pos two_pos _
  have hmant : |(v.mant : ℚ)| < 2 ^ 53 := by exact_mod_cast v.mant_lt
  have habs : |v.value| < 2 ^ (v.expo + 53) := by
    rw [value, abs_mul, abs_of_pos hpos, zpow_add₀ two_ne_zero, mul_comm]
    exact mul_lt_mul_of_pos_left hmant hpos
  have hexp : k ≤ v.expo := by
    have hlt := (zpow_lt_zpow_iff_right₀ (one_lt_two : (1 : ℚ) < 2)).mp (lt_of_le_of_lt h habs)
    omega
  obtain ⟨n, hn⟩ := Int.le.dest hexp
  refine ⟨v.mant * 2 ^ n, ?_⟩
  rw [value, ← hn, zpow_add₀ two_ne_zero, zpow_natCast]
  push_cast
  ring

/-- From `2 ^ 52` on, doubles are integers. -/
theorem Double.exists_int {v : Double} (h : 2 ^ 52 ≤ |v.value|) : ∃ z : ℤ, v.value = z := by
  obtain ⟨z, hz⟩ := v.exists_multiple (k := 0) (by exact_mod_cast h)
  exact ⟨z, by rw [hz, zpow_zero, mul_one]⟩

/-- Doubles below a large integer are at least 1/64 below it. -/
theorem Double.abs_le_sub_of_lt {v : Double} {b : ℤ} (hb : 2 ^ 46 < b)
    (h : |v.value| < b) : |v.value| ≤ b - 1 / 64 := by
  by_cases hbig : 2 ^ 46 ≤ |v.value|
  · obtain ⟨z, hz⟩ := v.exists_multiple (k := -6) (by norm_num; exact hbig)
    have habs : |v.value| = (|z| : ℤ) / 64 := by
      rw [hz, abs_mul, Int.cast_abs]
      norm_num
      ring
    rw [habs, div_lt_iff₀ (by norm_num)] at h
    have hlt : |z| < b * 64 := by exact_mod_cast h
    have hle : |z| ≤ b * 64 - 1 := by omega
    have hleq : ((|z| : ℤ) : ℚ) ≤ b * 64 - 1 := by exact_mod_cast hle
    rw [habs]
    linarith
  · have hsmall := not_le.mp hbig
    have hb' : (2 : ℚ) ^ 46 + 1 ≤ b := by exact_mod_cast hb
    linarith

/-- A nearest integer of a double: the double itself, or a small one. -/
theorem Double.nearest_cases {v : Double} {n : ℤ} (h : Nearest v.value n) :
    v.value = n ∨ (|v.value| < 2 ^ 52 ∧ -2 ^ 52 ≤ n ∧ n ≤ 2 ^ 52) := by
  by_cases hbig : 2 ^ 52 ≤ |v.value|
  · obtain ⟨z, hz⟩ := v.exists_int hbig
    rw [hz] at h
    left
    rw [h.intCast, hz]
  · have hsmall := not_le.mp hbig
    obtain ⟨hlow, hhigh⟩ := abs_lt.mp hsmall
    right
    refine ⟨hsmall, h.ge_of_ge ?_, h.le_of_le ?_⟩
    · push_cast
      linarith
    · push_cast
      linarith

/-- Far from the small ones, bounds on a nearest integer are bounds on the double. -/
theorem Double.nearest_between_iff {v : Double} {n a b : ℤ} (h : Nearest v.value n)
    (ha : a < -2 ^ 52) (hb : 2 ^ 52 < b) :
    (a < n ∧ n < b) ↔ ((a : ℚ) < v.value ∧ v.value < b) := by
  rcases v.nearest_cases h with heq | ⟨hsmall, hlow, hhigh⟩
  · rw [heq]
    norm_cast
  · obtain ⟨hv, hv'⟩ := abs_lt.mp hsmall
    have haq : (a : ℚ) < -2 ^ 52 := by exact_mod_cast ha
    have hbq : (2 : ℚ) ^ 52 < b := by exact_mod_cast hb
    constructor
    · rintro -
      exact ⟨by linarith, by linarith⟩
    · rintro -
      exact ⟨by omega, by omega⟩

end CPetDouble
