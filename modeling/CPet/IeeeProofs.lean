import CPet.DoubleProofs
import Mathlib.Algebra.Order.Round
import Mathlib.Analysis.Real.Sqrt
import Mathlib.Data.Int.Log
import Mathlib.Data.Nat.Sqrt

/-! # Arithmetic on doubles

    The values of type `double` are the finite ones, two infinities and not-a-number.
    An operation on finite values gives the exact result rounded to the
    grid of the doubles around it, ties to even, or an infinity beyond the
    largest double.  The sign of a zero is left out.

    What is used of the rounding: one rounding is off by half a grid step, which
    is a relative error of `2 ^ (-53)` or, below the normal range, an absolute
    one of `2 ^ (-1075)`; sums never suffer from the latter; a double bounds
    what is rounded as it bounds what it is rounded from. -/

namespace CPetIeee

open CPetRounding CPetDouble

/-- A value of type `double`. -/
inductive Ieee where
  | finite (v : Double)
  | infinite (negative : Bool)
  | nan

/-- Half the distance from 1 to the next double. -/
def unit : ℚ := 2 ^ (-53 : ℤ)

/-- Half the smallest positive double. -/
def tiny : ℚ := 2 ^ (-1075 : ℤ)

/-- The largest double. -/
def largest : ℚ := (2 ^ 53 - 1) * 2 ^ (971 : ℤ)

theorem unit_pos : 0 < unit := zpow_pos two_pos _

theorem tiny_pos : 0 < tiny := zpow_pos two_pos _

/-- `tiny` is half the smallest positive double. -/
theorem half_least : (2 : ℚ) ^ (-1074 : ℤ) / 2 = tiny := by
  rw [tiny, div_eq_mul_inv, ← zpow_neg_one, ← zpow_add₀ two_ne_zero]
  rfl

/-! ## Rounding -/

/-- The exponent of the grid of the doubles around a number. -/
def gridExpo (x : ℚ) : ℤ := if x = 0 then -1074 else max (Int.log 2 |x| - 52) (-1074)

/-- The significand of a number on its grid. -/
def significand (x : ℚ) : ℤ := roundHalfEven (x / 2 ^ gridExpo x)

/-- A number rounded to its grid. -/
def nearest (x : ℚ) : ℚ := significand x * 2 ^ gridExpo x

/-- The double `m * 2 ^ e`, where `m` has 53 bits or has been rounded up to the
    next power of two; an infinity when the exponent is out of range. -/
def pack (negative : Bool) (m e : ℤ) : Ieee :=
  if h : |m| < 2 ^ 53 ∧ -1074 ≤ e ∧ e ≤ 971 then
    .finite ⟨m, e, h.1, h.2.1, h.2.2⟩
  else if h : |m / 2| < 2 ^ 53 ∧ -1074 ≤ e + 1 ∧ e + 1 ≤ 971 then
    .finite ⟨m / 2, e + 1, h.1, h.2.1, h.2.2⟩
  else .infinite negative

/-- The double nearest to a number. -/
def round (x : ℚ) : Ieee := pack (decide (x < 0)) (significand x) (gridExpo x)

theorem grid_pos (x : ℚ) : (0 : ℚ) < 2 ^ gridExpo x := zpow_pos two_pos _

/-- No grid is finer than that of the smallest doubles. -/
theorem gridExpo_ge (x : ℚ) : -1074 ≤ gridExpo x := by
  rw [gridExpo]
  split
  · exact le_refl _
  · exact le_max_right _ _

/-- Above the smallest grid, the exponent is the one of the leading bit less 52. -/
theorem gridExpo_of_normal {x : ℚ} (h : gridExpo x ≠ -1074) :
    x ≠ 0 ∧ gridExpo x + 52 = Int.log 2 |x| := by
  rw [gridExpo] at h ⊢
  split at h
  · exact absurd rfl h
  · rename_i hx
    rw [if_neg hx]
    exact ⟨hx, by omega⟩

/-- A number is less than `2 ^ 53` steps of its grid from 0. -/
theorem abs_div_grid_lt (x : ℚ) : |x / 2 ^ gridExpo x| < 2 ^ 53 := by
  by_cases hx : x = 0
  · rw [hx, zero_div, abs_zero]
    norm_num
  rw [abs_div, abs_of_pos (grid_pos x), div_lt_iff₀ (grid_pos x)]
  have hlog : |x| < 2 ^ (Int.log 2 |x| + 1) := by
    have h := Int.lt_zpow_succ_log_self one_lt_two |x|
    exact_mod_cast h
  have hexpo : Int.log 2 |x| + 1 ≤ 53 + gridExpo x := by
    have h := le_max_left (Int.log 2 |x| - 52) (-1074)
    rw [gridExpo, if_neg hx]
    omega
  calc |x| < 2 ^ (Int.log 2 |x| + 1) := hlog
    _ ≤ 2 ^ (53 + gridExpo x) := zpow_le_zpow_right₀ one_le_two hexpo
    _ = 2 ^ 53 * 2 ^ gridExpo x := by
        rw [zpow_add₀ two_ne_zero]
        norm_num

/-- A significand has 53 bits, or is the next power of two. -/
theorem abs_significand_le (x : ℚ) : |significand x| ≤ 2 ^ 53 := by
  have hnear := nearest_roundHalfEven (x / 2 ^ gridExpo x)
  obtain ⟨hlow, hhigh⟩ := abs_lt.mp (abs_div_grid_lt x)
  rw [abs_le]
  constructor
  · refine hnear.ge_of_ge ?_
    push_cast
    linarith
  · refine hnear.le_of_le ?_
    push_cast
    linarith

/-- **HALF A STEP**: rounding is off by at most half a step of the grid. -/
theorem abs_nearest_sub_le (x : ℚ) : |nearest x - x| ≤ 2 ^ gridExpo x / 2 := by
  have hnear : |x / 2 ^ gridExpo x - significand x| ≤ 1 / 2 :=
    nearest_roundHalfEven (x / 2 ^ gridExpo x)
  have hx : nearest x - x = -((x / 2 ^ gridExpo x - significand x) * 2 ^ gridExpo x) := by
    rw [nearest, sub_mul, div_mul_cancel₀ x (grid_pos x).ne']
    ring
  rw [hx, abs_neg, abs_mul, abs_of_pos (grid_pos x)]
  have h := mul_le_mul_of_nonneg_right hnear (grid_pos x).le
  linarith

/-- In the normal range a step of the grid is a fixed fraction of the number. -/
theorem grid_le_of_normal {x : ℚ} (h : gridExpo x ≠ -1074) :
    (2 : ℚ) ^ gridExpo x ≤ 2 * unit * |x| := by
  obtain ⟨hx, hleading⟩ := gridExpo_of_normal h
  have hexpo : gridExpo x = Int.log 2 |x| + (-52) := by omega
  have hlog : (2 : ℚ) ^ Int.log 2 |x| ≤ |x| := by
    have h := Int.zpow_log_le_self one_lt_two (abs_pos.mpr hx)
    exact_mod_cast h
  have hunit : (2 : ℚ) ^ (-52 : ℤ) = 2 * unit := by
    rw [unit]
    norm_num
  rw [hexpo, zpow_add₀ two_ne_zero, hunit, mul_comm]
  exact mul_le_mul_of_nonneg_left hlog (by linarith [unit_pos])

/-- Numbers on the grid stay as they are. -/
theorem nearest_of_multiple {x : ℚ} {z : ℤ} (h : x = z * 2 ^ gridExpo x) : nearest x = x := by
  have hdiv : x / 2 ^ gridExpo x = z := by
    rw [div_eq_iff (grid_pos x).ne']
    exact h
  rw [nearest, significand, hdiv, roundHalfEven_intCast]
  exact h.symm

/-- **ONE ROUNDING** is off by a relative error and, below the normal range, an
    absolute one. -/
theorem abs_nearest_sub_le_unit (x : ℚ) : |nearest x - x| ≤ unit * |x| + tiny := by
  have hhalf := abs_nearest_sub_le x
  by_cases hsub : gridExpo x = -1074
  · rw [hsub, half_least] at hhalf
    have hpos := mul_nonneg unit_pos.le (abs_nonneg x)
    linarith
  · have hgrid := grid_le_of_normal hsub
    linarith [tiny_pos]

/-! ## Doubles and the grid -/

/-- Every double is a multiple of the smallest one. -/
theorem exists_multiple_least (v : Double) : ∃ z : ℤ, v.value = z * 2 ^ (-1074 : ℤ) := by
  obtain ⟨n, hn⟩ := Int.le.dest v.expo_ge
  refine ⟨v.mant * 2 ^ n, ?_⟩
  rw [Double.value, ← hn, zpow_add₀ two_ne_zero, zpow_natCast]
  generalize (2 : ℚ) ^ (-1074 : ℤ) = least
  push_cast
  ring

/-- A double lies on the grid of every number that it bounds. -/
theorem exists_multiple_grid {x : ℚ} {v : Double} (h : |x| ≤ |v.value|) :
    ∃ z : ℤ, v.value = z * 2 ^ gridExpo x := by
  by_cases hsub : gridExpo x = -1074
  · rw [hsub]
    exact exists_multiple_least v
  · obtain ⟨hx, hleading⟩ := gridExpo_of_normal hsub
    refine v.exists_multiple ?_
    rw [hleading]
    have hlog := Int.zpow_log_le_self one_lt_two (abs_pos.mpr hx)
    exact le_trans (by exact_mod_cast hlog) h

/-- Doubles are rounded to themselves. -/
theorem nearest_value (v : Double) : nearest v.value = v.value := by
  obtain ⟨z, hz⟩ := exists_multiple_grid (le_refl |v.value|)
  exact nearest_of_multiple hz

/-- **BOUNDS**: a double that bounds a number bounds what it is rounded to. -/
theorem nearest_le_of_le {x : ℚ} {v : Double} (hx : 0 ≤ x) (h : x ≤ v.value) :
    nearest x ≤ v.value := by
  obtain ⟨z, hz⟩ := exists_multiple_grid (x := x) (v := v)
    (by rw [abs_of_nonneg hx]; exact h.trans (le_abs_self _))
  have hle : x / 2 ^ gridExpo x ≤ z := by
    rw [div_le_iff₀ (grid_pos x), ← hz]
    exact h
  have hsig : significand x ≤ z := (nearest_roundHalfEven _).le_of_le (by linarith)
  rw [nearest, hz]
  exact mul_le_mul_of_nonneg_right (by exact_mod_cast hsig) (grid_pos x).le

/-- A point of the grid below a number is below what the number is rounded to. -/
theorem le_nearest_of_multiple {x : ℚ} {z : ℤ} (h : z * 2 ^ gridExpo x ≤ x) :
    z * 2 ^ gridExpo x ≤ nearest x := by
  have hle : (z : ℚ) ≤ x / 2 ^ gridExpo x := (le_div_iff₀ (grid_pos x)).mpr h
  have hsig : z ≤ significand x := (nearest_roundHalfEven _).ge_of_ge (by linarith)
  exact mul_le_mul_of_nonneg_right (by exact_mod_cast hsig) (grid_pos x).le

/-- Rounding does not go below a double that was below, -/
theorem le_nearest_of_le {x : ℚ} {v : Double} (hv : 0 ≤ v.value) (h : v.value ≤ x) :
    v.value ≤ nearest x := by
  by_cases hsub : gridExpo x = -1074
  · obtain ⟨z, hz⟩ := exists_multiple_least v
    rw [← hsub] at hz
    rw [hz] at h ⊢
    exact le_nearest_of_multiple h
  obtain ⟨hx, hleading⟩ := gridExpo_of_normal hsub
  by_cases hbig : 2 ^ (gridExpo x + 52) ≤ |v.value|
  · obtain ⟨z, hz⟩ := v.exists_multiple hbig
    rw [hz] at h ⊢
    exact le_nearest_of_multiple h
  · -- the leading bit of the number lies between them
    have hbit : ((2 ^ 52 : ℤ) : ℚ) * 2 ^ gridExpo x = 2 ^ (gridExpo x + 52) := by
      rw [zpow_add₀ two_ne_zero, mul_comm]
      norm_num
    have hlog : (2 : ℚ) ^ (gridExpo x + 52) ≤ x := by
      have hle := Int.zpow_log_le_self one_lt_two (abs_pos.mpr hx)
      rw [hleading]
      refine le_trans (by exact_mod_cast hle) (abs_of_nonneg (hv.trans h)).le
    have hnear := le_nearest_of_multiple (hbit.trans_le hlog)
    rw [hbit] at hnear
    rw [abs_of_nonneg hv] at hbig
    exact (not_le.mp hbig).le.trans hnear

/-- **SUMS** of doubles suffer from the relative error only: below the normal range
    they are exact. -/
theorem abs_nearest_add_sub_le (v w : Double) :
    |nearest (v.value + w.value) - (v.value + w.value)| ≤ unit * |v.value + w.value| := by
  generalize hx : v.value + w.value = x
  by_cases hsub : gridExpo x = -1074
  · obtain ⟨y, hy⟩ := exists_multiple_least v
    obtain ⟨z, hz⟩ := exists_multiple_least w
    have hsum : x = ((y + z : ℤ) : ℚ) * 2 ^ gridExpo x := by
      rw [hsub, ← hx, hy, hz, Int.cast_add, add_mul]
    rw [nearest_of_multiple hsum, sub_self, abs_zero]
    exact mul_nonneg unit_pos.le (abs_nonneg x)
  · have hgrid := grid_le_of_normal hsub
    have hhalf := abs_nearest_sub_le x
    linarith

/-- treats both signs alike, -/
theorem nearest_neg (x : ℚ) : nearest (-x) = -nearest x := by
  have hgrid : gridExpo (-x) = gridExpo x := by
    simp only [gridExpo, abs_neg, neg_eq_zero]
  rw [nearest, significand, hgrid, neg_div, roundHalfEven_neg, nearest, significand]
  push_cast
  ring

/-- and what is not negative stays so. -/
theorem nearest_nonneg {x : ℚ} (hx : 0 ≤ x) : 0 ≤ nearest x := by
  have hsig : 0 ≤ significand x := by
    refine (nearest_roundHalfEven _).ge_of_ge ?_
    have hdiv := div_nonneg hx (grid_pos x).le
    push_cast
    linarith
  exact mul_nonneg (by exact_mod_cast hsig) (grid_pos x).le

/-- So it may be done on the absolute value. -/
theorem abs_nearest (x : ℚ) : |nearest x| = nearest |x| := by
  rcases le_total 0 x with hx | hx
  · rw [abs_of_nonneg hx, abs_of_nonneg (nearest_nonneg hx)]
  · rw [abs_of_nonpos hx, nearest_neg, abs_of_nonpos]
    have h := nearest_nonneg (neg_nonneg.mpr hx)
    rw [nearest_neg] at h
    linarith

/-! ## What is rounded to 0 -/

def zeroDouble : Double := ⟨0, 0, by norm_num, by norm_num, by norm_num⟩

theorem value_zeroDouble : zeroDouble.value = 0 := by
  rw [Double.value, zeroDouble, Int.cast_zero, zero_mul]

theorem unit_lt_one : unit < 1 := by
  rw [unit]
  norm_num

/-- A sum of doubles is rounded to 0 only if it is 0. -/
theorem nearest_add_eq_zero_iff {v w : Double} :
    nearest (v.value + w.value) = 0 ↔ v.value + w.value = 0 := by
  constructor
  · intro h
    have herr := abs_nearest_add_sub_le v w
    rw [h, zero_sub, abs_neg] at herr
    by_contra hne
    have hlt := mul_lt_mul_of_pos_right unit_lt_one (abs_pos.mpr hne)
    linarith
  · intro h
    have hnear := nearest_value zeroDouble
    rw [value_zeroDouble] at hnear
    rw [h, hnear]

/-- Other numbers are rounded to 0 up to half the smallest double, which is a tie. -/
theorem nearest_eq_zero_iff {x : ℚ} : nearest x = 0 ↔ |x| ≤ tiny := by
  constructor
  · intro h
    have hhalf := abs_nearest_sub_le x
    rw [h, zero_sub, abs_neg] at hhalf
    by_cases hsub : gridExpo x = -1074
    · rwa [hsub, half_least] at hhalf
    · have hgrid := grid_le_of_normal hsub
      have hpos := abs_pos.mpr (gridExpo_of_normal hsub).1
      have hlt := mul_lt_mul_of_pos_right unit_lt_one hpos
      linarith
  · intro h
    have hexpo : gridExpo x = -1074 := by
      by_contra hsub
      obtain ⟨hx, hleading⟩ := gridExpo_of_normal hsub
      have hlog : (2 : ℚ) ^ Int.log 2 |x| ≤ 2 ^ (-1075 : ℤ) := by
        have hle := Int.zpow_log_le_self one_lt_two (abs_pos.mpr hx)
        exact le_trans (by exact_mod_cast hle) h
      have hle := (zpow_le_zpow_iff_right₀ (one_lt_two : (1 : ℚ) < 2)).mp hlog
      have hge := gridExpo_ge x
      omega
    have hsig : significand x = 0 := by
      have hdiv : |x / 2 ^ gridExpo x| ≤ 1 / 2 := by
        rw [abs_div, abs_of_pos (grid_pos x), div_le_iff₀ (grid_pos x), hexpo, one_div,
          inv_mul_eq_div, half_least]
        exact h
      exact roundHalfEven_eq_zero hdiv
    rw [nearest, hsig, Int.cast_zero, zero_mul]

/-! ## The range -/

/-- The double furthest from 0. -/
def largestDouble : Double := ⟨2 ^ 53 - 1, 971, by norm_num, by norm_num, le_refl _⟩

theorem value_largestDouble : largestDouble.value = largest := by
  rw [Double.value, largestDouble, largest]
  norm_num

/-- What is in range is rounded in range. -/
theorem abs_nearest_le {x : ℚ} (h : |x| ≤ largest) : |nearest x| ≤ largest := by
  rw [abs_nearest, ← value_largestDouble]
  exact nearest_le_of_le (abs_nonneg x) (h.trans value_largestDouble.ge)

theorem two_pow_range : (2 : ℚ) ^ (1024 : ℤ) = 2 ^ 53 * 2 ^ (971 : ℤ) := by
  rw [← zpow_natCast, ← zpow_add₀ two_ne_zero]
  rfl

/-- A significand that was rounded up is even. -/
theorem halves {m : ℤ} (h : |m| = 2 ^ 53) : m = 2 * (m / 2) ∧ |m / 2| < 2 ^ 53 := by
  rcases (abs_eq (by norm_num)).mp h with rfl | rfl
  · decide
  · decide

/-- **PACKING** keeps the value, and gives an infinity only beyond the range. -/
theorem pack_cases (negative : Bool) {m e : ℤ} (hm : |m| ≤ 2 ^ 53) (he : -1074 ≤ e) :
    (∃ v, pack negative m e = .finite v ∧ v.value = m * 2 ^ e)
      ∨ (pack negative m e = .infinite negative ∧ (972 ≤ e ∨ (e = 971 ∧ |m| = 2 ^ 53))) := by
  rw [pack]
  split
  · left
    exact ⟨_, rfl, rfl⟩
  rename_i hfirst
  split
  · left
    refine ⟨_, rfl, ?_⟩
    rename_i hsecond
    -- only a significand that was rounded up gets here
    have hpower : |m| = 2 ^ 53 := by omega
    obtain ⟨hhalf, -⟩ := halves hpower
    show ((m / 2 : ℤ) : ℚ) * 2 ^ (e + 1) = m * 2 ^ e
    rw [zpow_add_one₀ two_ne_zero, mul_comm ((2 : ℚ) ^ e) 2, ← mul_assoc]
    congr 1
    have hcast : (m : ℚ) = ((2 * (m / 2) : ℤ) : ℚ) := congrArg _ hhalf
    rw [hcast]
    push_cast
    ring
  · right
    rename_i hsecond
    refine ⟨rfl, ?_⟩
    by_cases hexpo : 972 ≤ e
    · exact .inl hexpo
    · have hpower : |m| = 2 ^ 53 := by omega
      obtain ⟨-, hhalf⟩ := halves hpower
      exact .inr ⟨by omega, hpower⟩

/-- The largest double is below the end of the range. -/
theorem largest_lt_range : largest < 2 ^ (1024 : ℤ) := by
  rw [two_pow_range, largest]
  exact mul_lt_mul_of_pos_right (by norm_num) (zpow_pos two_pos _)

/-- Numbers with a leading bit beyond the range are rounded beyond it. -/
theorem range_le_of_gridExpo {x : ℚ} (h : 972 ≤ gridExpo x) : 2 ^ (1024 : ℤ) ≤ |nearest x| := by
  obtain ⟨hx, hleading⟩ := gridExpo_of_normal (x := x) (by omega)
  have hgrid : gridExpo |x| = gridExpo x := by simp only [gridExpo, abs_abs, abs_eq_zero]
  have hbit : ((2 ^ 52 : ℤ) : ℚ) * 2 ^ gridExpo |x| = 2 ^ Int.log 2 |x| := by
    rw [hgrid, ← hleading, zpow_add₀ two_ne_zero, mul_comm]
    norm_num
  have hlog : (2 : ℚ) ^ Int.log 2 |x| ≤ |x| := by
    have hle := Int.zpow_log_le_self one_lt_two (abs_pos.mpr hx)
    exact_mod_cast hle
  have hnear := le_nearest_of_multiple (hbit.trans_le hlog)
  rw [hbit] at hnear
  rw [abs_nearest]
  exact le_trans (zpow_le_zpow_right₀ one_le_two (by omega)) hnear

/-- **WHAT ROUNDING GIVES**: the nearest double, or an infinity of the number's sign
    when the number is rounded beyond the largest double. -/
theorem round_cases (x : ℚ) :
    (∃ v, round x = .finite v ∧ v.value = nearest x)
      ∨ (round x = .infinite (decide (x < 0)) ∧ largest < |nearest x|) := by
  rcases pack_cases (decide (x < 0)) (abs_significand_le x) (gridExpo_ge x) with
    hfinite | ⟨hinf, hbeyond⟩
  · exact .inl hfinite
  right
  refine ⟨hinf, ?_⟩
  rcases hbeyond with hexpo | ⟨htop, hpower⟩
  · exact largest_lt_range.trans_le (range_le_of_gridExpo hexpo)
  · -- the significand was rounded up, at the largest exponent
    rw [nearest, abs_mul, abs_of_pos (grid_pos x), htop, ← Int.cast_abs, hpower]
    refine largest_lt_range.trans_le (two_pow_range.trans_le ?_)
    norm_num

/-- **IN RANGE** a number is rounded to the nearest double. -/
theorem round_of_range {x : ℚ} (h : |x| ≤ largest) :
    ∃ v, round x = .finite v ∧ v.value = nearest x := by
  rcases round_cases x with hfinite | ⟨-, hlt⟩
  · exact hfinite
  · exact absurd hlt (not_lt.mpr (abs_nearest_le h))

/-- Doubles are within the range. -/
theorem abs_value_le (v : Double) : |v.value| ≤ largest := by
  have hpos : (0 : ℚ) < 2 ^ v.expo := zpow_pos two_pos _
  have hmant : |v.mant| ≤ 2 ^ 53 - 1 := by
    have h := v.mant_lt
    omega
  rw [Double.value, largest, abs_mul, abs_of_pos hpos, ← Int.cast_abs]
  have hmant' : ((|v.mant| : ℤ) : ℚ) ≤ 2 ^ 53 - 1 := by exact_mod_cast hmant
  exact mul_le_mul hmant' (zpow_le_zpow_right₀ one_le_two v.expo_le) hpos.le (by norm_num)

/-- **EXACT**: rounding gives every double back. -/
theorem round_value (v : Double) : ∃ r, round v.value = .finite r ∧ r.value = v.value := by
  obtain ⟨r, hr, hvalue⟩ := round_of_range (abs_value_le v)
  exact ⟨r, hr, by rw [hvalue, nearest_value]⟩

/-! ## The operations -/

def negDouble (v : Double) : Double :=
  ⟨-v.mant, v.expo, by rw [abs_neg]; exact v.mant_lt, v.expo_ge, v.expo_le⟩

theorem value_negDouble (v : Double) : (negDouble v).value = -v.value := by
  rw [Double.value, Double.value, negDouble, Int.cast_neg, neg_mul]

instance : Zero Ieee := ⟨.finite zeroDouble⟩

/-- `-x` -/
def Ieee.neg : Ieee → Ieee
  | .finite v => .finite (negDouble v)
  | .infinite negative => .infinite (!negative)
  | .nan => .nan

/-- `fabs(x)` -/
def Ieee.abs : Ieee → Ieee
  | .finite v => if v.mant < 0 then .finite (negDouble v) else .finite v
  | .infinite _ => .infinite false
  | .nan => .nan

/-- `x + y` -/
def Ieee.add : Ieee → Ieee → Ieee
  | .finite v, .finite w => round (v.value + w.value)
  | .finite _, .infinite negative => .infinite negative
  | .infinite negative, .finite _ => .infinite negative
  | .infinite negative, .infinite negative' =>
      if negative = negative' then .infinite negative else .nan
  | .nan, _ => .nan
  | _, .nan => .nan

/-- `x * y` -/
def Ieee.mul : Ieee → Ieee → Ieee
  | .finite v, .finite w => round (v.value * w.value)
  | .finite v, .infinite negative =>
      if v.mant = 0 then .nan else .infinite (decide (v.mant < 0) ^^ negative)
  | .infinite negative, .finite w =>
      if w.mant = 0 then .nan else .infinite (negative ^^ decide (w.mant < 0))
  | .infinite negative, .infinite negative' => .infinite (negative ^^ negative')
  | .nan, _ => .nan
  | _, .nan => .nan

/-- `x < y`, which is false of a not-a-number. -/
def Ieee.lt : Ieee → Ieee → Bool
  | .finite v, .finite w => decide (v.value < w.value)
  | .finite _, .infinite negative => !negative
  | .infinite negative, .finite _ => negative
  | .infinite negative, .infinite negative' => negative && !negative'
  | .nan, _ => false
  | _, .nan => false

instance : Neg Ieee := ⟨Ieee.neg⟩

instance : Add Ieee := ⟨Ieee.add⟩

instance : Sub Ieee := ⟨fun x y => x.add y.neg⟩

instance : Mul Ieee := ⟨Ieee.mul⟩

/-- A sum is the exact sum, rounded, -/
theorem finite_add_finite (v w : Double) :
    Ieee.finite v + Ieee.finite w = round (v.value + w.value) := by
  show Ieee.add _ _ = _
  rw [Ieee.add]

/-- and a product is the exact product, rounded. -/
theorem finite_mul_finite (v w : Double) :
    Ieee.finite v * Ieee.finite w = round (v.value * w.value) := by
  show Ieee.mul _ _ = _
  rw [Ieee.mul]

/-- **ADDITION** within the range; adding to zero changes nothing. -/
theorem add_finite {v w : Double} (h : |v.value + w.value| ≤ largest) :
    ∃ r, Ieee.finite v + Ieee.finite w = .finite r
      ∧ |r.value - (v.value + w.value)| ≤ unit * |v.value + w.value|
      ∧ (v.value = 0 → r.value = v.value + w.value) := by
  obtain ⟨r, hr, hvalue⟩ := round_of_range h
  refine ⟨r, (finite_add_finite v w).trans hr, ?_, ?_⟩
  · rw [hvalue]
    exact abs_nearest_add_sub_le v w
  · intro hzero
    rw [hvalue, hzero, zero_add, nearest_value]

/-- **MULTIPLICATION** within the range. -/
theorem mul_finite {v w : Double} (h : |v.value * w.value| ≤ largest) :
    ∃ r, Ieee.finite v * Ieee.finite w = .finite r
      ∧ |r.value - v.value * w.value| ≤ unit * |v.value * w.value| + tiny := by
  obtain ⟨r, hr, hvalue⟩ := round_of_range h
  refine ⟨r, (finite_mul_finite v w).trans hr, ?_⟩
  rw [hvalue]
  exact abs_nearest_sub_le_unit _

/-- **DISTANCE** of two doubles: the absolute value of their rounded difference is
    their distance, rounded. -/
theorem abs_sub_finite (v w : Double) :
    (∃ d, (Ieee.finite v - Ieee.finite w).abs = .finite d
        ∧ d.value = nearest |v.value - w.value|)
      ∨ ((Ieee.finite v - Ieee.finite w).abs = .infinite false
        ∧ largest < nearest |v.value - w.value|) := by
  have hsub : Ieee.finite v - Ieee.finite w = round (v.value - w.value) := by
    show Ieee.add (.finite v) (Ieee.neg (.finite w)) = _
    rw [Ieee.neg, Ieee.add, value_negDouble, sub_eq_add_neg]
  rw [hsub]
  rcases round_cases (v.value - w.value) with ⟨d, hd, hvalue⟩ | ⟨hinf, hlt⟩
  · left
    rw [hd, Ieee.abs, ← abs_nearest, ← hvalue]
    have hpos : (0 : ℚ) < 2 ^ d.expo := zpow_pos two_pos _
    by_cases hneg : d.mant < 0
    · refine ⟨negDouble d, if_pos hneg, ?_⟩
      have hlt : d.value < 0 := mul_neg_of_neg_of_pos (by exact_mod_cast hneg) hpos
      rw [value_negDouble, abs_of_neg hlt]
    · refine ⟨d, if_neg hneg, ?_⟩
      have hge : 0 ≤ d.value := mul_nonneg (by exact_mod_cast not_lt.mp hneg) hpos.le
      rw [abs_of_nonneg hge]
  · right
    rw [hinf, ← abs_nearest]
    exact ⟨rfl, hlt⟩

/-! ## The square root -/

/-- The exponent of the grid of the doubles around a square root. -/
def sqrtExpo (q : ℚ) : ℤ := Int.log 2 q / 2 - 52

/-- The integer nearest to a square root. -/
def nearestSqrt (y : ℚ) : ℤ :=
  if (Nat.sqrt ⌊y⌋₊ : ℚ) * Nat.sqrt ⌊y⌋₊ + Nat.sqrt ⌊y⌋₊ + 1 / 4 < y then Nat.sqrt ⌊y⌋₊ + 1
  else Nat.sqrt ⌊y⌋₊

/-- `sqrt(x)` -/
def Ieee.sqrt : Ieee → Ieee
  | .finite v =>
      if v.mant < 0 then .nan
      else pack false (nearestSqrt (v.value / 4 ^ sqrtExpo v.value)) (sqrtExpo v.value)
  | .infinite negative => if negative then .nan else .infinite false
  | .nan => .nan

/-- The root is rounded to the nearest whole number, too. -/
theorem nearest_nearestSqrt {y : ℚ} (hy : 0 ≤ y) : Nearest (Real.sqrt y) (nearestSqrt y) := by
  rw [nearestSqrt]
  generalize hn : Nat.sqrt ⌊y⌋₊ = n
  have hyr : (0 : ℝ) ≤ (y : ℝ) := by exact_mod_cast hy
  have hnr : (0 : ℝ) ≤ (n : ℝ) := Nat.cast_nonneg n
  have hlow : (n : ℝ) ≤ Real.sqrt y := by
    refine Real.le_sqrt_of_sq_le ?_
    have hfloor : n ^ 2 ≤ ⌊y⌋₊ := hn ▸ Nat.sqrt_le' _
    have h : ((n ^ 2 : ℕ) : ℚ) ≤ y := le_trans (by exact_mod_cast hfloor) (Nat.floor_le hy)
    exact_mod_cast h
  have hhigh : Real.sqrt y < n + 1 := by
    rw [Real.sqrt_lt' (by linarith)]
    have hfloor : ⌊y⌋₊ < (n + 1) ^ 2 := hn ▸ Nat.lt_succ_sqrt' _
    have h : y < ((n + 1) ^ 2 : ℕ) := (Nat.floor_lt hy).mp hfloor
    exact_mod_cast h
  have hsquare : ((n : ℝ) + 1 / 2) ^ 2 = n * n + n + 1 / 4 := by ring
  rw [Nearest, abs_le]
  split
  · rename_i hup
    have hhalf : (n : ℝ) + 1 / 2 ≤ Real.sqrt y := by
      refine Real.le_sqrt_of_sq_le ?_
      rw [hsquare]
      have h := Rat.cast_le (K := ℝ) |>.mpr hup.le
      push_cast at h
      exact h
    push_cast
    constructor
    · linarith
    · linarith
  · rename_i hdown
    have hhalf : Real.sqrt y ≤ n + 1 / 2 := by
      rw [Real.sqrt_le_left (by linarith), hsquare]
      have h := Rat.cast_le (K := ℝ) |>.mpr (not_lt.mp hdown)
      push_cast at h
      exact h
    push_cast
    constructor
    · linarith
    · linarith

/-- The leading bit of a positive double is in range. -/
theorem log_value_bounds {v : Double} (hv : 0 < v.value) :
    -1074 ≤ Int.log 2 v.value ∧ Int.log 2 v.value ≤ 1023 := by
  constructor
  · refine (Int.zpow_le_iff_le_log one_lt_two hv).mp ?_
    obtain ⟨z, hz⟩ := exists_multiple_least v
    have hpos : (0 : ℚ) < 2 ^ (-1074 : ℤ) := zpow_pos two_pos _
    have hz0 : 0 < z := by
      rw [hz] at hv
      exact_mod_cast pos_of_mul_pos_left hv hpos.le
    have hz1 : (1 : ℚ) ≤ z := by exact_mod_cast hz0
    rw [hz, Nat.cast_ofNat]
    exact le_mul_of_one_le_left hpos.le hz1
  · have hle := abs_value_le v
    rw [abs_of_pos hv] at hle
    have hlt : v.value < ((2 : ℕ) : ℚ) ^ (1024 : ℤ) := by
      refine lt_of_le_of_lt hle ?_
      rw [Nat.cast_ofNat]
      exact largest_lt_range
    have h := (Int.lt_zpow_iff_log_lt one_lt_two hv).mp hlt
    omega

/-- A square root is between two powers of two. -/
theorem sqrt_between {q : ℚ} (hq : 0 < q) :
    (2 : ℝ) ^ (sqrtExpo q + 52) ≤ Real.sqrt q
      ∧ Real.sqrt q < 2 ^ (sqrtExpo q + 53) := by
  have hsquare : ∀ e : ℤ, ((2 : ℝ) ^ e) ^ 2 = (2 : ℝ) ^ (2 * e) := by
    intro e
    rw [← zpow_natCast, ← zpow_mul, mul_comm, Nat.cast_ofNat]
  constructor
  · refine Real.le_sqrt_of_sq_le ?_
    rw [hsquare]
    have hlog : (2 : ℝ) ^ Int.log 2 q ≤ q := by
      have h := Rat.cast_le (K := ℝ) |>.mpr (Int.zpow_log_le_self one_lt_two hq)
      push_cast at h
      exact h
    refine le_trans (zpow_le_zpow_right₀ one_le_two ?_) hlog
    rw [sqrtExpo]
    omega
  · rw [Real.sqrt_lt' (zpow_pos two_pos _), hsquare]
    have hlog : (q : ℝ) < 2 ^ (Int.log 2 q + 1) := by
      have h := Rat.cast_lt (K := ℝ) |>.mpr (Int.lt_zpow_succ_log_self one_lt_two q)
      push_cast at h
      exact h
    refine lt_of_lt_of_le hlog (zpow_le_zpow_right₀ one_le_two ?_)
    rw [sqrtExpo]
    omega

/-- A mantissa and an exponent in range make a double. -/
theorem pack_of_range (negative : Bool) {m e : ℤ} (hm : |m| ≤ 2 ^ 53) (he : -1074 ≤ e)
    (he' : e ≤ 970) : ∃ v, pack negative m e = .finite v ∧ v.value = m * 2 ^ e := by
  rcases pack_cases negative hm he with hfinite | ⟨-, hbeyond⟩
  · exact hfinite
  · omega

/-- The root of a number is taken of its mantissa, at half the exponent. -/
theorem sqrt_eq_pack {v : Double} (hv : 0 ≤ v.value) :
    Ieee.sqrt (.finite v)
      = pack false (nearestSqrt (v.value / 4 ^ sqrtExpo v.value)) (sqrtExpo v.value) := by
  have hmant : ¬ v.mant < 0 := by
    intro hneg
    have hlt : v.value < 0 :=
      mul_neg_of_neg_of_pos (by exact_mod_cast hneg) (zpow_pos two_pos _)
    linarith
  rw [Ieee.sqrt, if_neg hmant]

/-- The root of 0 is 0. -/
theorem sqrt_zero {v : Double} (hv : v.value = 0) :
    ∃ r, Ieee.sqrt (.finite v) = .finite r ∧ r.value = 0 := by
  have hexpo : sqrtExpo v.value = -52 := by
    rw [hv, sqrtExpo, Int.log_zero_right]
    rfl
  have hroot : nearestSqrt (v.value / 4 ^ sqrtExpo v.value) = 0 := by
    rw [hv, zero_div, nearestSqrt]
    norm_num
  rw [sqrt_eq_pack hv.ge, hroot, hexpo]
  obtain ⟨r, hr, hvalue⟩ := pack_of_range (m := 0) (e := -52) false (by norm_num) (by norm_num)
    (by norm_num)
  exact ⟨r, hr, by rw [hvalue, Int.cast_zero, zero_mul]⟩

/-- On its grid, the root of the scaled value is rounded. -/
theorem nearest_scaledSqrt {q : ℚ} (hq : 0 ≤ q) :
    Nearest (Real.sqrt q / 2 ^ sqrtExpo q) (nearestSqrt (q / 4 ^ sqrtExpo q)) := by
  have hgrid : (0 : ℝ) < 2 ^ sqrtExpo q := zpow_pos two_pos _
  have hscaled : Real.sqrt ((q / 4 ^ sqrtExpo q : ℚ) : ℝ) = Real.sqrt q / 2 ^ sqrtExpo q := by
    have hfour : (4 : ℝ) ^ sqrtExpo q = (2 ^ sqrtExpo q) ^ 2 := by
      rw [← zpow_natCast, ← zpow_mul, mul_comm, zpow_mul]
      norm_num
    push_cast
    rw [Real.sqrt_div' _ (by positivity), hfour, Real.sqrt_sq hgrid.le]
  have hnear := nearest_nearestSqrt (y := q / 4 ^ sqrtExpo q) (by positivity)
  rwa [hscaled] at hnear

/-- The significand of a root has 53 bits, or has been rounded up. -/
theorem abs_nearestSqrt_le {q : ℚ} (hq : 0 < q) :
    |nearestSqrt (q / 4 ^ sqrtExpo q)| ≤ 2 ^ 53 := by
  have hgrid : (0 : ℝ) < 2 ^ sqrtExpo q := zpow_pos two_pos _
  have hnear := nearest_scaledSqrt hq.le
  have hroot : Real.sqrt q / 2 ^ sqrtExpo q < 2 ^ 53 := by
    have hhigh := (sqrt_between hq).2
    rw [zpow_add₀ two_ne_zero, mul_comm] at hhigh
    rw [div_lt_iff₀ hgrid]
    exact_mod_cast hhigh
  have hroot0 : 0 ≤ Real.sqrt q / 2 ^ sqrtExpo q := by positivity
  rw [abs_le]
  constructor
  · refine hnear.ge_of_ge ?_
    push_cast
    linarith
  · refine hnear.le_of_le ?_
    push_cast
    linarith

/-- **SQUARE ROOTS** suffer from the relative error only. -/
theorem sqrt_finite {v : Double} (hv : 0 ≤ v.value) :
    ∃ r, Ieee.sqrt (.finite v) = .finite r
      ∧ |(r.value : ℝ) - Real.sqrt v.value| ≤ unit * Real.sqrt v.value := by
  rcases hv.eq_or_lt' with hzero | hpos
  · obtain ⟨r, hr, hvalue⟩ := sqrt_zero hzero
    refine ⟨r, hr, ?_⟩
    rw [hvalue, hzero, Rat.cast_zero, Real.sqrt_zero, sub_zero, abs_zero, mul_zero]
  have hexpo : -1074 ≤ sqrtExpo v.value ∧ sqrtExpo v.value ≤ 970 := by
    have hlog := log_value_bounds hpos
    rw [sqrtExpo]
    omega
  obtain ⟨r, hr, hvalue⟩ :=
    pack_of_range false (abs_nearestSqrt_le hpos) hexpo.1 hexpo.2
  refine ⟨r, (sqrt_eq_pack hv).trans hr, ?_⟩
  have hgrid : (0 : ℝ) < 2 ^ sqrtExpo v.value := zpow_pos two_pos _
  have hhalf : |(r.value : ℝ) - Real.sqrt v.value| ≤ 2 ^ sqrtExpo v.value / 2 := by
    have hdist : (r.value : ℝ) - Real.sqrt v.value
        = -((Real.sqrt v.value / 2 ^ sqrtExpo v.value
            - nearestSqrt (v.value / 4 ^ sqrtExpo v.value)) * 2 ^ sqrtExpo v.value) := by
      rw [hvalue, sub_mul, div_mul_cancel₀ _ hgrid.ne']
      push_cast
      ring
    rw [hdist, abs_neg, abs_mul, abs_of_pos hgrid]
    have h := mul_le_mul_of_nonneg_right (nearest_scaledSqrt hv) hgrid.le
    linarith
  -- half a step of the grid, next to the root
  have hunit : (2 : ℝ) ^ sqrtExpo v.value / 2 = unit * 2 ^ (sqrtExpo v.value + 52) := by
    rw [zpow_add₀ two_ne_zero, unit]
    push_cast
    norm_num
    ring
  rw [hunit] at hhalf
  refine hhalf.trans (mul_le_mul_of_nonneg_left (sqrt_between hpos).1 ?_)
  exact_mod_cast unit_pos.le

/-! ## Values that are not negative -/

/-- A zero. -/
def Ieee.IsZero (w : Ieee) : Prop := ∃ v, w = .finite v ∧ v.value = 0

/-- Neither negative nor not-a-number. -/
def Ieee.NonNeg : Ieee → Prop
  | .finite v => 0 ≤ v.value
  | .infinite negative => negative = false
  | .nan => False

theorem Ieee.isZero_finite_iff {v : Double} : Ieee.IsZero (.finite v) ↔ v.value = 0 := by
  constructor
  · rintro ⟨v', h, hzero⟩
    cases h
    exact hzero
  · intro hzero
    exact ⟨v, rfl, hzero⟩

theorem Ieee.not_isZero_infinite (negative : Bool) : ¬ Ieee.IsZero (.infinite negative) := by
  rintro ⟨v, h, -⟩
  cases h

/-- A rounded number is 0 exactly when it was nearest to 0, -/
theorem isZero_round_iff {x : ℚ} : (round x).IsZero ↔ nearest x = 0 := by
  rcases round_cases x with ⟨v, hv, hvalue⟩ | ⟨hinf, hlt⟩
  · rw [hv, Ieee.isZero_finite_iff, hvalue]
  · rw [hinf]
    refine iff_of_false (Ieee.not_isZero_infinite _) ?_
    intro hzero
    rw [hzero, abs_zero] at hlt
    exact absurd ((abs_nonneg _).trans (abs_value_le zeroDouble)) (not_le.mpr hlt)

/-- and is not negative if the number was not. -/
theorem nonNeg_round {x : ℚ} (hx : 0 ≤ x) : (round x).NonNeg := by
  rcases round_cases x with ⟨v, hv, hvalue⟩ | ⟨hinf, -⟩
  · rw [hv]
    exact (nearest_nonneg hx).trans_eq hvalue.symm
  · rw [hinf]
    exact decide_eq_false (not_lt.mpr hx)

/-- **SQUARES** are 0 up to half the smallest double. -/
theorem square_finite (v : Double) :
    (Ieee.finite v * Ieee.finite v).NonNeg
      ∧ ((Ieee.finite v * Ieee.finite v).IsZero ↔ v.value ^ 2 ≤ tiny) := by
  rw [finite_mul_finite]
  refine ⟨nonNeg_round (mul_self_nonneg _), ?_⟩
  rw [isZero_round_iff, nearest_eq_zero_iff, abs_mul_self, sq]

/-- **SUMS** of values that are not negative are 0 only if both are. -/
theorem add_nonNeg {w p : Ieee} (hw : w.NonNeg) (hp : p.NonNeg) :
    (w + p).NonNeg ∧ ((w + p).IsZero ↔ w.IsZero ∧ p.IsZero) := by
  cases w with
  | nan => exact hw.elim
  | infinite negative =>
      have hinf : Ieee.infinite negative + p = .infinite negative := by
        show Ieee.add _ _ = _
        cases p with
        | nan => exact hp.elim
        | finite p => rw [Ieee.add]
        | infinite negative' => rw [Ieee.add, if_pos (hw.trans hp.symm)]
      rw [hinf]
      exact ⟨hw, iff_of_false (Ieee.not_isZero_infinite _)
        (fun h => Ieee.not_isZero_infinite _ h.1)⟩
  | finite v =>
      cases p with
      | nan => exact hp.elim
      | infinite negative =>
          have hinf : Ieee.finite v + Ieee.infinite negative = .infinite negative := by
            show Ieee.add _ _ = _
            rw [Ieee.add]
          rw [hinf]
          exact ⟨hp, iff_of_false (Ieee.not_isZero_infinite _)
            (fun h => Ieee.not_isZero_infinite _ h.2)⟩
      | finite p =>
          rw [finite_add_finite]
          refine ⟨nonNeg_round (add_nonneg hw hp), ?_⟩
          rw [isZero_round_iff, nearest_add_eq_zero_iff, add_eq_zero_iff_of_nonneg hw hp,
            Ieee.isZero_finite_iff, Ieee.isZero_finite_iff]

/-- **ROOTS** are 0 exactly when their square is. -/
theorem sqrt_nonNeg {w : Ieee} (hw : w.NonNeg) : w.sqrt.IsZero ↔ w.IsZero := by
  cases w with
  | nan => exact hw.elim
  | infinite negative =>
      have hinf : (Ieee.infinite negative).sqrt = .infinite false := by
        rw [Ieee.sqrt, show negative = false from hw, if_neg Bool.false_ne_true]
      rw [hinf]
      exact iff_of_false (Ieee.not_isZero_infinite _) (Ieee.not_isZero_infinite _)
  | finite v =>
      obtain ⟨r, hr, herr⟩ := sqrt_finite hw
      rw [hr, Ieee.isZero_finite_iff, Ieee.isZero_finite_iff]
      constructor
      · intro hzero
        rw [hzero, Rat.cast_zero, zero_sub, abs_neg, abs_of_nonneg (Real.sqrt_nonneg _)] at herr
        by_contra hne
        have hpos : (0 : ℝ) < Real.sqrt v.value := by
          refine Real.sqrt_pos.mpr ?_
          exact_mod_cast lt_of_le_of_ne hw (Ne.symm hne)
        have hlt : ((unit : ℚ) : ℝ) < 1 := by exact_mod_cast unit_lt_one
        have h := mul_lt_mul_of_pos_right hlt hpos
        linarith
      · intro hzero
        rw [hzero, Rat.cast_zero, Real.sqrt_zero, sub_zero, mul_zero] at herr
        exact_mod_cast abs_nonpos_iff.mp herr

end CPetIeee
