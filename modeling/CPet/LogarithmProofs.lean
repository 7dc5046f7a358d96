import Mathlib.Analysis.SpecialFunctions.Log.Base

/-! # Logarithms that are off

    A logarithm of an integer is computed with a small error.  The logarithms of
    the integers next to a power of the base keep a distance from the exponent,
    so that the error cannot carry a result past it: rounding up gives one of two
    integers, and the smaller one for powers only. -/

namespace CPetLogarithm

/-- Logarithms of numbers that are 1 apart are apart. -/
theorem inv_le_logb_sub {b x y : ℝ} (hb : 1 < b) (hx : 0 < x) (hxy : x + 1 ≤ y) :
    1 / (y * Real.log b) ≤ Real.logb b y - Real.logb b x := by
  have hlog : 0 < Real.log b := Real.log_pos hb
  have hy : 0 < y := by linarith
  have hratio : 1 / y ≤ Real.log (y / x) := by
    refine le_trans ?_ (Real.one_sub_inv_le_log_of_pos (div_pos hy hx))
    have hdiff : 1 - (y / x)⁻¹ = (y - x) / y := by
      rw [inv_div, sub_div, div_self hy.ne']
    rw [hdiff]
    exact div_le_div_of_nonneg_right (by linarith) hy.le
  rw [← Real.logb_div hy.ne' hx.ne', Real.logb, ← div_div]
  exact div_le_div_of_nonneg_right hratio hlog.le

section Near

variable {b n : ℕ} {v ε : ℝ}

/-- A gap between integers up to `b * n` is wider than the error. -/
theorem lt_logb_sub (hb : 1 < b) (hε : 0 ≤ ε) (hsmall : ε * (b * n * Real.log b) < 1) {x y : ℕ}
    (hx : 0 < x) (hxy : x + 1 ≤ y) (hy : y ≤ b * n) :
    ε < Real.logb b y - Real.logb b x := by
  have hb' : (1 : ℝ) < b := Nat.one_lt_cast.mpr hb
  have hy' : (0 : ℝ) < y := Nat.cast_pos.mpr (by omega)
  have hlog : 0 < Real.log b := Real.log_pos hb'
  refine lt_of_lt_of_le ?_
    (inv_le_logb_sub hb' (Nat.cast_pos.mpr hx) (by exact_mod_cast hxy))
  rw [lt_div_iff₀ (mul_pos hy' hlog)]
  refine lt_of_le_of_lt (mul_le_mul_of_nonneg_left ?_ hε) hsmall
  exact mul_le_mul_of_nonneg_right (by exact_mod_cast hy) hlog.le

theorem logb_pow_self (hb : 1 < b) (k : ℕ) : Real.logb b ((b ^ k : ℕ) : ℝ) = k := by
  rw [Nat.cast_pow, Real.logb_pow, Real.logb_self_eq_one (Nat.one_lt_cast.mpr hb), mul_one]

/-- A computed logarithm reaches the next exponent at most. -/
theorem le_of_near (hb : 1 < b) (hn : 0 < n) (hnear : |v - Real.logb b n| ≤ ε)
    (hsmall : ε * (b * n * Real.log b) < 1) : v < Nat.log b n + 1 := by
  have hpow : b ^ (Nat.log b n + 1) ≤ b * n := by
    rw [pow_succ']
    exact Nat.mul_le_mul_left b (Nat.pow_log_le_self b hn.ne')
  have hgap := lt_logb_sub hb ((abs_nonneg _).trans hnear) hsmall hn
    (Nat.lt_pow_succ_log_self hb n) hpow
  rw [logb_pow_self hb] at hgap
  push_cast at hgap
  have hv := (abs_le.mp hnear).2
  linarith

/-- **POWERS ONLY** have a computed logarithm that is not above the integer one. -/
theorem eq_pow_of_near (hb : 1 < b) (hn : 0 < n) (hnear : |v - Real.logb b n| ≤ ε)
    (hsmall : ε * (b * n * Real.log b) < 1) (hle : v ≤ Nat.log b n) : n = b ^ Nat.log b n := by
  by_contra hne
  have hlow : b ^ Nat.log b n + 1 ≤ n :=
    Nat.lt_of_le_of_ne (Nat.pow_log_le_self b hn.ne') (Ne.symm hne)
  have hgap := lt_logb_sub hb ((abs_nonneg _).trans hnear) hsmall
    (Nat.pow_pos (Nat.zero_lt_of_lt hb)) hlow (Nat.le_mul_of_pos_left n (Nat.zero_lt_of_lt hb))
  rw [logb_pow_self hb] at hgap
  have hv := (abs_le.mp hnear).1
  linarith

/-- **ROUNDED UP**, a computed logarithm is the integer one or its successor. -/
theorem ceil_near (hb : 1 < b) (hn : 0 < n) (hnear : |v - Real.logb b n| ≤ ε)
    (hsmall : ε * (b * n * Real.log b) < 1) :
    ⌈v⌉ = Nat.log b n + if v ≤ Nat.log b n then 0 else 1 := by
  have hhigh := le_of_near hb hn hnear hsmall
  split
  · rename_i hle
    rw [Int.ceil_eq_iff]
    refine ⟨?_, by push_cast; linarith⟩
    -- the error is less than the distance to the next power
    have hpower := eq_pow_of_near hb hn hnear hsmall hle
    have hlogb : Real.logb b n = Nat.log b n := by
      conv_lhs => rw [hpower]
      exact logb_pow_self hb _
    have hε : ε < 1 := by
      have hgap := lt_logb_sub hb ((abs_nonneg _).trans hnear) hsmall hn
        (Nat.succ_le_of_lt (lt_mul_of_one_lt_left hn hb)) (le_refl _)
      have hb' : (1 : ℝ) < b := Nat.one_lt_cast.mpr hb
      rw [Nat.cast_mul, Real.logb_mul (by positivity) (by positivity),
        Real.logb_self_eq_one hb'] at hgap
      linarith
    have hv := (abs_le.mp hnear).1
    rw [hlogb] at hv
    push_cast
    linarith
  · rename_i hlt
    rw [Int.ceil_eq_iff]
    push_cast
    exact ⟨by linarith, hhigh.le⟩

end Near

end CPetLogarithm
