import Mathlib.Algebra.BigOperators.Ring.Finset
import Mathlib.Analysis.Real.Sqrt
import Mathlib.Tactic.Linarith
import Mathlib.Tactic.Positivity
import Mathlib.Tactic.Ring

/-! # Accumulated rounding errors

    A sum is accumulated from left to right.  Every term is computed with a
    relative error `u` and an absolute one `e`, every addition with a relative
    error `u`, the first addition, to nothing, without error.

    After `k` terms the sum is then off by `(1 + u) ^ k - 1` times the sum of
    the absolute values, and `k` absolute errors that have grown along.  A
    square root turns the relative error into one of the same kind, and the
    absolute error into its square root. -/

namespace CPetErrorBound

section Sum

variable {K : Type} [Field K] [LinearOrder K] [IsStrictOrderedRing K]

/-- How large the computed sum of `k` terms can get, when the absolute values of
    the terms add up to `total`. -/
def magnitude (u e total : K) (k : Nat) : K := (1 + u) ^ k * total + k * (1 + u) ^ k * e

/-- How far it can be off. -/
def deviation (u e total : K) (k : Nat) : K :=
  ((1 + u) ^ k - 1) * total + k * (1 + u) ^ k * e

variable {u e r s p t total : K} {k : Nat}

/-- What is near something is not much larger. -/
theorem abs_le_of_sub {d : K} (h : |p - t| ≤ d) : |p| ≤ |t| + d := by
  have hsplit := abs_add_le (p - t) t
  rw [sub_add_cancel] at hsplit
  linarith

/-- More terms only make it larger. -/
theorem magnitude_mono {total' : K} {n : Nat} (hu : 0 ≤ u) (he : 0 ≤ e) (ht : 0 ≤ total)
    (hle : total ≤ total') (hk : k ≤ n) : magnitude u e total k ≤ magnitude u e total' n := by
  have hgrow : (1 + u) ^ k ≤ (1 + u) ^ n := pow_le_pow_right₀ (by linarith) hk
  have hpos : (0 : K) ≤ (1 + u) ^ k := pow_nonneg (by linarith) k
  have hcount : (k : K) ≤ n := by exact_mod_cast hk
  have hmain : (1 + u) ^ k * total ≤ (1 + u) ^ n * total' :=
    mul_le_mul hgrow hle ht (hpos.trans hgrow)
  have hrest : k * (1 + u) ^ k * e ≤ n * (1 + u) ^ n * e :=
    mul_le_mul_of_nonneg_right (mul_le_mul hcount hgrow hpos (Nat.cast_nonneg n)) he
  rw [magnitude, magnitude]
  linarith

/-- **ONE MORE TERM**: what is added up next stays within the magnitude. -/
theorem magnitude_step (hu : 0 ≤ u) (he : 0 ≤ e) (hs : |s| ≤ total)
    (hr : |r - s| ≤ deviation u e total k) (hp : |p - t| ≤ u * |t| + e) :
    |r + p| ≤ magnitude u e (total + |t|) (k + 1) := by
  have htotal : 0 ≤ total := (abs_nonneg s).trans hs
  have hpow : (1 : K) ≤ (1 + u) ^ k := one_le_pow₀ (by linarith)
  have hgrow : (1 + u) ^ k ≤ (1 + u) ^ (k + 1) :=
    pow_le_pow_right₀ (by linarith) (Nat.le_succ k)
  have hr' := abs_le_of_sub hr
  have hp' := abs_le_of_sub hp
  have hterm : (1 + u) * |t| ≤ (1 + u) ^ (k + 1) * |t| := by
    refine mul_le_mul_of_nonneg_right ?_ (abs_nonneg t)
    rw [pow_succ]
    exact le_mul_of_one_le_left (by linarith) hpow
  have hsum : (1 + u) ^ k * total ≤ (1 + u) ^ (k + 1) * total :=
    mul_le_mul_of_nonneg_right hgrow htotal
  have hrest : k * (1 + u) ^ k * e + e ≤ ((k + 1 : Nat) : K) * (1 + u) ^ (k + 1) * e := by
    have hold : k * (1 + u) ^ k * e ≤ k * (1 + u) ^ (k + 1) * e :=
      mul_le_mul_of_nonneg_right (mul_le_mul_of_nonneg_left hgrow (Nat.cast_nonneg k)) he
    have hnew : e ≤ (1 + u) ^ (k + 1) * e := le_mul_of_one_le_left he (hpow.trans hgrow)
    push_cast
    linarith
  have habs := abs_add_le r p
  rw [deviation] at hr'
  rw [magnitude]
  linarith

/-- **ONE MORE ADDITION** keeps the sum within its deviation. -/
theorem deviation_step {r' : K} (hu : 0 ≤ u) (he : 0 ≤ e) (hs : |s| ≤ total)
    (hr : |r - s| ≤ deviation u e total k) (hp : |p - t| ≤ u * |t| + e)
    (hadd : |r' - (r + p)| ≤ u * |r + p|) (hfirst : k = 0 → r' = r + p) :
    |r' - (s + t)| ≤ deviation u e (total + |t|) (k + 1) := by
  have htotal : 0 ≤ total := (abs_nonneg s).trans hs
  have hsplit : |r' - (s + t)| ≤ |r' - (r + p)| + (|r - s| + |p - t|) := by
    have hparts : r' - (s + t) = (r' - (r + p)) + ((r - s) + (p - t)) := by ring
    rw [hparts]
    exact (abs_add_le _ _).trans (add_le_add_right (abs_add_le _ _) _)
  cases k with
  | zero =>
      rw [hfirst rfl] at hsplit ⊢
      rw [sub_self, abs_zero] at hsplit
      rw [deviation, pow_zero, sub_self, zero_mul, Nat.cast_zero, zero_mul, zero_mul, add_zero]
        at hr
      have hue := mul_nonneg hu he
      have hut := mul_nonneg hu htotal
      rw [deviation, zero_add, pow_one, Nat.cast_one]
      linarith
  | succ k =>
      have hone : (1 : K) ≤ (1 + u) ^ k := one_le_pow₀ (by linarith)
      have hpow : 1 + u ≤ (1 + u) ^ (k + 1) := by
        rw [pow_succ]
        exact le_mul_of_one_le_left (by linarith) hone
      have hrp : u * |r + p|
          ≤ u * (total + deviation u e total (k + 1) + (|t| + (u * |t| + e))) := by
        refine mul_le_mul_of_nonneg_left ((abs_add_le r p).trans ?_) hu
        have hr' := abs_le_of_sub hr
        have hp' := abs_le_of_sub hp
        linarith
      -- the term's own error is at most that of the second addition
      have hterm : (1 + u) * (1 + u) * |t| ≤ (1 + u) ^ (k + 1) * (1 + u) * |t| :=
        mul_le_mul_of_nonneg_right (mul_le_mul_of_nonneg_right hpow (by linarith)) (abs_nonneg t)
      have hrest : (1 + u) * e ≤ (1 + u) ^ (k + 1) * (1 + u) * e :=
        mul_le_mul_of_nonneg_right (le_mul_of_one_le_left (by linarith) (by linarith)) he
      rw [deviation] at hr hrp ⊢
      rw [pow_succ (1 + u) (k + 1)]
      push_cast at *
      linarith

end Sum

/-! ## Square roots -/

/-- **SQUARE ROOT** of something that is off. -/
theorem sqrt_within {u d e r s w : ℝ} (hu : 0 ≤ u) (hd : 0 ≤ d) (he : 0 ≤ e) (hr : 0 ≤ r)
    (hs : 0 ≤ s) (hrs : |r - s| ≤ d * s + e) (hw : |w - Real.sqrt r| ≤ u * Real.sqrt r) :
    |w - Real.sqrt s| ≤ ((1 + u) * (1 + d) - 1) * Real.sqrt s + (1 + u) * Real.sqrt e := by
  obtain ⟨hlow, hhigh⟩ := abs_le.mp hrs
  have hroot := Real.sqrt_nonneg s
  have hsum : ∀ {x y : ℝ}, 0 ≤ x → 0 ≤ y → Real.sqrt (x + y) ≤ Real.sqrt x + Real.sqrt y := by
    intro x y hx hy
    rw [Real.sqrt_le_left (add_nonneg (Real.sqrt_nonneg x) (Real.sqrt_nonneg y)), add_sq,
      Real.sq_sqrt hx, Real.sq_sqrt hy]
    have h := mul_nonneg (Real.sqrt_nonneg x) (Real.sqrt_nonneg y)
    linarith
  have hup : Real.sqrt r ≤ (1 + d) * Real.sqrt s + Real.sqrt e := by
    have hle : r ≤ (1 + d) ^ 2 * s + e := by
      have hdd := mul_nonneg hd hs
      have hdd' := mul_nonneg hd hdd
      nlinarith only [hhigh, hdd, hdd']
    refine (Real.sqrt_le_sqrt hle).trans ((hsum (by positivity) he).trans_eq ?_)
    rw [Real.sqrt_mul (by positivity), Real.sqrt_sq (by linarith)]
  have hdown : (1 - d) * Real.sqrt s ≤ Real.sqrt r + Real.sqrt e := by
    by_cases hbig : 1 ≤ d
    · have h := mul_nonneg (sub_nonneg.mpr hbig) hroot
      have h' := Real.sqrt_nonneg r
      have h'' := Real.sqrt_nonneg e
      linarith
    · have hd1 : 0 ≤ 1 - d := by linarith
      refine le_trans ?_ (hsum hr he)
      refine Real.le_sqrt_of_sq_le ?_
      rw [mul_pow, Real.sq_sqrt hs]
      have h := mul_nonneg (mul_nonneg hd1 hd) hs
      nlinarith only [hlow, h]
  obtain ⟨hwlow, hwhigh⟩ := abs_le.mp hw
  have hgrow := mul_le_mul_of_nonneg_left hup hu
  rw [abs_le]
  constructor
  · linarith
  · linarith

end CPetErrorBound
