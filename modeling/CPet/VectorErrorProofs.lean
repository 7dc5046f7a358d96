import CPet.ErrorBoundProofs
import CPet.IeeeProofs
import CPet.VectorProofs
import Mathlib.Tactic.IntervalCases

/-! # `dot` and `norm2` on doubles

    Both loops add up products of components, each product and each sum
    rounded.  As long as no intermediate result can leave the range, the
    result is a finite double, and off by what `n` rounded products and
    additions are off at most; the norm by what the root makes of that.

    A norm is 0 exactly when the square of every component is rounded to 0:
    small components that are not 0 get lost. -/

namespace CPetVectorError

open CPetRun CPetDouble CPetErrorBound CPetVector
open CPetIeee (Ieee unit tiny largest)

/-- The first `n` components of a vector are the doubles `x`. -/
def HasDoubles (a : Vector Ieee) (n : Nat) (x : Nat → Double) : Prop :=
  ∀ i, i < n → a.read i = some (.finite (x i))

/-- The sum of the products, computed exactly. -/
def exact (x y : Nat → Double) (n : Nat) : ℚ :=
  ∑ i ∈ Finset.range n, (x i).value * (y i).value

/-- The sum of their absolute values. -/
def total (x y : Nat → Double) (n : Nat) : ℚ :=
  ∑ i ∈ Finset.range n, |(x i).value * (y i).value|

theorem exact_succ (x y : Nat → Double) (n : Nat) :
    exact x y (n + 1) = exact x y n + (x n).value * (y n).value := Finset.sum_range_succ _ n

theorem total_succ (x y : Nat → Double) (n : Nat) :
    total x y (n + 1) = total x y n + |(x n).value * (y n).value| := Finset.sum_range_succ _ n

/-- The exact product is at most the sum of the absolute values. -/
theorem abs_exact_le (x y : Nat → Double) (n : Nat) : |exact x y n| ≤ total x y n :=
  Finset.abs_sum_le_sum_abs _ _

theorem total_nonneg (x y : Nat → Double) (n : Nat) : 0 ≤ total x y n :=
  (abs_nonneg _).trans (abs_exact_le x y n)

/-- More products add up to more. -/
theorem total_mono (x y : Nat → Double) {k n : Nat} (h : k ≤ n) : total x y k ≤ total x y n :=
  Finset.sum_le_sum_of_subset_of_nonneg (Finset.range_mono h) (fun _ _ _ => abs_nonneg _)

/-- How far the computed sum of `n` products can be off. -/
def dotError (x y : Nat → Double) (n : Nat) : ℚ := deviation unit tiny (total x y n) n

/-- No intermediate result of the first `n` rounds can leave the range. -/
def InRange (x y : Nat → Double) (n : Nat) : Prop :=
  magnitude unit tiny (total x y n) n ≤ largest

/-- What stays in range does so from the beginning on. -/
theorem InRange.mono {x y : Nat → Double} {k n : Nat} (h : InRange x y n) (hk : k ≤ n) :
    InRange x y k :=
  (magnitude_mono CPetIeee.unit_pos.le CPetIeee.tiny_pos.le (total_nonneg x y k)
    (total_mono x y hk) hk).trans h

/-! ## One round -/

variable {a b : Vector Ieee} {x y : Nat → Double}

/-- A round on finite doubles, before anything is rounded. -/
theorem accumulate_finite {k n : Nat} (ha : HasDoubles a n x) (hb : HasDoubles b n y)
    (hk : k < n) (r : Double) :
    accumulate a b k (some (.finite r))
      = some (Ieee.finite r + Ieee.finite (x k) * Ieee.finite (y k)) := by
  rw [accumulate, Option.bind_some, ha k hk, Option.bind_some, hb k hk, Option.map_some]

/-- **ONE ROUND** keeps the sum within its error. -/
theorem within_round {k : Nat} {r : Double} (hrange : InRange x y (k + 1))
    (hr : |r.value - exact x y k| ≤ dotError x y k) (hfirst : k = 0 → r.value = 0) :
    ∃ r', Ieee.finite r + Ieee.finite (x k) * Ieee.finite (y k) = .finite r'
      ∧ |r'.value - exact x y (k + 1)| ≤ dotError x y (k + 1) := by
  have hu := CPetIeee.unit_pos.le
  have he := CPetIeee.tiny_pos.le
  -- the product is one of the terms that are in range together
  have hproduct : |(x k).value * (y k).value| ≤ largest := by
    have hterm : |(x k).value * (y k).value| ≤ total x y (k + 1) := by
      rw [total_succ]
      linarith [total_nonneg x y k]
    have hgrow := magnitude_mono hu he (total_nonneg x y (k + 1)) (le_refl _)
      (Nat.zero_le (k + 1))
    rw [magnitude, pow_zero, one_mul, Nat.cast_zero, zero_mul, zero_mul, add_zero] at hgrow
    exact hterm.trans (hgrow.trans hrange)
  obtain ⟨p, hp, hperr⟩ := CPetIeee.mul_finite hproduct
  have hsum : |r.value + p.value| ≤ largest := by
    refine (magnitude_step hu he (abs_exact_le x y k) hr hperr).trans ?_
    rw [← total_succ]
    exact hrange
  obtain ⟨r', hr', hadd, hzero⟩ := CPetIeee.add_finite hsum
  refine ⟨r', by rw [hp, hr'], ?_⟩
  rw [exact_succ, dotError, total_succ]
  exact deviation_step hu he (abs_exact_le x y k) hr hperr hadd (fun h => hzero (hfirst h))

/-- **ALL ROUNDS**, by induction. -/
theorem within_rounds {n : Nat} (ha : HasDoubles a n x) (hb : HasDoubles b n y)
    (hrange : InRange x y n) :
    ∀ k, k ≤ n →
      ∃ r, forRange k (fun i result => accumulate a b i result) (some 0) = some (.finite r)
        ∧ |r.value - exact x y k| ≤ dotError x y k ∧ (k = 0 → r.value = 0) := by
  intro k
  induction k with
  | zero =>
      intro _
      refine ⟨CPetIeee.zeroDouble, rfl, ?_, fun _ => CPetIeee.value_zeroDouble⟩
      rw [CPetIeee.value_zeroDouble, exact, dotError, total, deviation]
      norm_num
  | succ k ih =>
      intro hk
      obtain ⟨r, hrun, hr, hfirst⟩ := ih (Nat.le_of_succ_le hk)
      obtain ⟨r', hround, hr'⟩ := within_round (hrange.mono hk) hr hfirst
      refine ⟨r', ?_, hr', fun h => absurd h (Nat.succ_ne_zero k)⟩
      rw [forRange_succ, hrun, accumulate_finite ha hb hk, hround]

/-- **DOT**: within the range the product is finite, and off by at most the error of
    `n` rounded products and additions. -/
theorem dot_within (ha : HasDoubles a a.dims.toNat x) (hb : HasDoubles b a.dims.toNat y)
    (hrange : InRange x y a.dims.toNat) :
    ∃ r, dot a b = some (.finite r)
      ∧ |r.value - exact x y a.dims.toNat| ≤ dotError x y a.dims.toNat := by
  obtain ⟨r, hrun, hr, -⟩ := within_rounds ha hb hrange _ (le_refl _)
  exact ⟨r, hrun, hr⟩

/-- The doubles with one exponent. -/
def onGrid (g m : ℤ) (hg : -1074 ≤ g ∧ g ≤ 971) (hm : |m| < 2 ^ 53) : Double :=
  ⟨m, g, hm, hg.1, hg.2⟩

/-- Integers are on the grid of step 1. -/
theorem zero_grid : -1074 ≤ (0 : ℤ) ∧ (0 : ℤ) ≤ 971 := by decide

theorem value_onGrid_zero {m : ℤ} (hm : |m| < 2 ^ 53) : (onGrid 0 m zero_grid hm).value = m := by
  rw [Double.value, onGrid, zpow_zero, mul_one]

/-- The doubles 1, 2 and, from there on, 3. -/
def countThree (i : Nat) : Double :=
  onGrid 0 (min (i + 1) 3) zero_grid (by rw [abs_lt]; omega)

/-- The vector 1, 2, 3. -/
def oneTwoThree : Vector Ieee :=
  ⟨3, [.finite (countThree 0), .finite (countThree 1), .finite (countThree 2)], rfl⟩

theorem hasDoubles_oneTwoThree : HasDoubles oneTwoThree 3 countThree := by
  intro i hi
  interval_cases i
  · rfl
  · rfl
  · rfl

theorem value_countThree (i : Nat) : (countThree i).value = ((min (i + 1) 3 : ℤ) : ℚ) :=
  value_onGrid_zero _

theorem total_oneTwoThree : total countThree countThree 3 = 14 := by
  rw [total, Finset.sum_range_succ, Finset.sum_range_succ, Finset.sum_range_succ,
    Finset.sum_range_zero, value_countThree, value_countThree, value_countThree]
  norm_num

/-- Three rounds on products that add up to 14 are far from the largest double. -/
theorem magnitude_fourteen : magnitude unit tiny 14 3 ≤ largest := by
  have hu : unit ≤ 1 := CPetIeee.unit_lt_one.le
  have hu' := CPetIeee.unit_pos
  have he : tiny ≤ 1 := zpow_le_one_of_nonpos₀ one_le_two (by norm_num)
  have hlargest : (2 : ℚ) ^ 53 - 1 ≤ largest :=
    le_mul_of_one_le_right (by norm_num) (one_le_zpow₀ one_le_two (by norm_num))
  have hpow : (1 + unit) ^ 3 ≤ 2 ^ 3 := pow_le_pow_left₀ (by linarith) (by linarith) 3
  have hlost : 3 * (1 + unit) ^ 3 * tiny ≤ 3 * 2 ^ 3 * 1 :=
    mul_le_mul (by linarith) he CPetIeee.tiny_pos.le (by norm_num)
  rw [magnitude, Nat.cast_ofNat]
  linarith

/-- So up to three terms that add up to at most 14 stay in range. -/
theorem inRange_of_total_le {n : Nat} (hn : n ≤ 3) (h : total x y n ≤ 14) : InRange x y n :=
  (magnitude_mono CPetIeee.unit_pos.le CPetIeee.tiny_pos.le (total_nonneg x y n) h hn).trans
    magnitude_fourteen

theorem inRange_oneTwoThree : InRange countThree countThree 3 :=
  inRange_of_total_le (le_refl _) total_oneTwoThree.le

/-- The bound for the product of 1, 2, 3 with itself. -/
theorem dot_within_oneTwoThree :
    ∃ r, dot oneTwoThree oneTwoThree = some (.finite r)
      ∧ |r.value - exact countThree countThree 3| ≤ dotError countThree countThree 3 :=
  dot_within hasDoubles_oneTwoThree hasDoubles_oneTwoThree inRange_oneTwoThree

/-! ## Products without rounding errors -/

/-- One round gives the double that the exact sum is. -/
theorem exact_round {k : Nat} {r p s : Double} (hp : (x k).value * (y k).value = p.value)
    (hs : r.value + p.value = s.value) :
    ∃ r', Ieee.finite r + Ieee.finite (x k) * Ieee.finite (y k) = .finite r'
      ∧ r'.value = s.value := by
  obtain ⟨p', hp', hpvalue⟩ := CPetIeee.round_value p
  obtain ⟨s', hs', hsvalue⟩ := CPetIeee.round_value s
  refine ⟨s', ?_, hsvalue⟩
  rw [CPetIeee.finite_mul_finite, hp, hp', CPetIeee.finite_add_finite, hpvalue, hs, hs']

/-- All rounds, as long as the partial sums have 53 bits. -/
theorem exact_rounds {g : ℤ} {z : Nat → ℤ} {n : Nat} (ha : HasDoubles a n x)
    (hb : HasDoubles b n y) (hg : -1074 ≤ g ∧ g ≤ 971)
    (hz : ∀ i, i < n → (x i).value * (y i).value = z i * 2 ^ g)
    (hsmall : ∑ i ∈ Finset.range n, |z i| < 2 ^ 53) :
    ∀ k, k ≤ n →
      ∃ r, forRange k (fun i result => accumulate a b i result) (some 0) = some (.finite r)
        ∧ r.value = (∑ i ∈ Finset.range k, z i : ℤ) * 2 ^ g := by
  intro k
  induction k with
  | zero =>
      intro _
      refine ⟨CPetIeee.zeroDouble, rfl, ?_⟩
      rw [CPetIeee.value_zeroDouble, Finset.sum_range_zero, Int.cast_zero, zero_mul]
  | succ k ih =>
      intro hk
      obtain ⟨r, hrun, hr⟩ := ih (Nat.le_of_succ_le hk)
      have hterm : |z k| < 2 ^ 53 :=
        lt_of_le_of_lt (Finset.single_le_sum (f := fun i => |z i|) (fun _ _ => abs_nonneg _)
          (Finset.mem_range.mpr hk)) hsmall
      have hsum : |∑ i ∈ Finset.range (k + 1), z i| < 2 ^ 53 := by
        refine lt_of_le_of_lt ((Finset.abs_sum_le_sum_abs _ _).trans ?_) hsmall
        exact Finset.sum_le_sum_of_subset_of_nonneg (Finset.range_mono hk)
          (fun _ _ _ => abs_nonneg _)
      -- the product and the sum are doubles themselves
      obtain ⟨r', hround, hr'⟩ := exact_round (r := r) (p := onGrid g (z k) hg hterm)
        (s := onGrid g _ hg hsum) (hz k hk) (by
          show r.value + z k * 2 ^ g = (∑ i ∈ Finset.range (k + 1), z i : ℤ) * (2 : ℚ) ^ g
          rw [hr, Finset.sum_range_succ]
          push_cast
          ring)
      refine ⟨r', ?_, hr'⟩
      rw [forRange_succ, hrun, accumulate_finite ha hb hk, hround]

/-- The products on a grid add up on it. -/
theorem exact_eq_sum {g : ℤ} {z : Nat → ℤ} {n : Nat}
    (hz : ∀ i, i < n → (x i).value * (y i).value = z i * 2 ^ g) :
    exact x y n = (∑ i ∈ Finset.range n, z i : ℤ) * 2 ^ g := by
  rw [exact, Int.cast_sum, Finset.sum_mul]
  exact Finset.sum_congr rfl (fun i hi => hz i (Finset.mem_range.mp hi))

/-- **EXACT**: when all products lie on one grid and their absolute values add up to
    less than `2 ^ 53` of its steps, nothing is rounded. -/
theorem dot_exact {g : ℤ} {z : Nat → ℤ} (ha : HasDoubles a a.dims.toNat x)
    (hb : HasDoubles b a.dims.toNat y) (hg : -1074 ≤ g ∧ g ≤ 971)
    (hz : ∀ i, i < a.dims.toNat → (x i).value * (y i).value = z i * 2 ^ g)
    (hsmall : ∑ i ∈ Finset.range a.dims.toNat, |z i| < 2 ^ 53) :
    ∃ r, dot a b = some (.finite r) ∧ r.value = exact x y a.dims.toNat := by
  obtain ⟨r, hrun, hr⟩ := exact_rounds ha hb hg hz hsmall _ (le_refl _)
  exact ⟨r, hrun, hr.trans (exact_eq_sum hz).symm⟩

/-- The product of 1, 2, 3 with itself is exact. -/
theorem dot_exact_oneTwoThree :
    ∃ r, dot oneTwoThree oneTwoThree = some (.finite r)
      ∧ r.value = exact countThree countThree 3 := by
  refine dot_exact (g := 0) (z := fun i => (min (i + 1) 3 : ℤ) * (min (i + 1) 3 : ℤ))
    hasDoubles_oneTwoThree hasDoubles_oneTwoThree (by norm_num) ?_ ?_
  · intro i _
    rw [value_countThree]
    push_cast
    ring
  · decide

/-! ## The norm -/

/-- The rounds of a norm add up values that are not negative, and the sum is 0 exactly
    when all squares were rounded to 0. -/
theorem squares_rounds {n : Nat} (ha : HasDoubles a n x) :
    ∀ k, k ≤ n →
      ∃ w, forRange k (fun i result => accumulate a a i result) (some 0) = some w
        ∧ w.NonNeg ∧ (w.IsZero ↔ ∀ i, i < k → (x i).value ^ 2 ≤ tiny) := by
  intro k
  induction k with
  | zero =>
      intro _
      refine ⟨0, rfl, CPetIeee.value_zeroDouble.ge, ?_⟩
      exact iff_of_true ⟨CPetIeee.zeroDouble, rfl, CPetIeee.value_zeroDouble⟩
        (fun i hi => absurd hi (Nat.not_lt_zero i))
  | succ k ih =>
      intro hk
      obtain ⟨w, hrun, hw, hzero⟩ := ih (Nat.le_of_succ_le hk)
      obtain ⟨hsquare, hsmall⟩ := CPetIeee.square_finite (x k)
      obtain ⟨hsum, hboth⟩ := CPetIeee.add_nonNeg hw hsquare
      refine ⟨w + Ieee.finite (x k) * Ieee.finite (x k), ?_, hsum, ?_⟩
      · rw [forRange_succ, hrun, accumulate, Option.bind_some, ha k hk, Option.bind_some,
          Option.map_some]
      · rw [hboth, hzero, hsmall]
        constructor
        · rintro ⟨hbefore, hlast⟩ i hi
          rcases Nat.lt_succ_iff_lt_or_eq.mp hi with hlt | rfl
          · exact hbefore i hlt
          · exact hlast
        · intro hall
          exact ⟨fun i hi => hall i (Nat.lt_succ_of_lt hi), hall k (Nat.lt_succ_self k)⟩

/-- **ZERO**: the norm of a vector of finite doubles is 0 exactly when the square of
    every component is at most half the smallest positive double. -/
theorem norm2_zero_iff (ha : HasDoubles a a.dims.toNat x) :
    (∃ w, norm2 Ieee.sqrt a = some w ∧ w.IsZero)
      ↔ ∀ i, i < a.dims.toNat → (x i).value ^ 2 ≤ tiny := by
  obtain ⟨w, hrun, hw, hzero⟩ := squares_rounds ha _ (le_refl _)
  have hnorm : norm2 Ieee.sqrt a = some w.sqrt := by rw [norm2, hrun, Option.map_some]
  rw [← hzero, ← CPetIeee.sqrt_nonNeg hw]
  constructor
  · rintro ⟨w', hw', hvalue⟩
    rw [hnorm] at hw'
    cases hw'
    exact hvalue
  · intro hvalue
    exact ⟨w.sqrt, hnorm, hvalue⟩

/-- The condition for 1, 2, 3, none of whose squares gets lost. -/
theorem norm2_zero_iff_oneTwoThree :
    (∃ w, norm2 Ieee.sqrt oneTwoThree = some w ∧ w.IsZero)
      ↔ ∀ i, i < 3 → (countThree i).value ^ 2 ≤ tiny :=
  norm2_zero_iff hasDoubles_oneTwoThree

/-- How far a computed norm can be off: the relative error of `n + 1` operations, beside
    what the squares lost below the normal range. -/
noncomputable def normError (x : Nat → Double) (n : Nat) : ℝ :=
  ((1 + unit) ^ (n + 1) - 1) * Real.sqrt (exact x x n)
    + (1 + unit) * Real.sqrt (n * (1 + unit) ^ n * tiny)

/-- The root of a computed sum of squares. -/
theorem norm_of_rounds {n : Nat} (ha : HasDoubles a n x) (hrange : InRange x x n) :
    ∃ s, (forRange n (fun i result => accumulate a a i result) (some 0)).map Ieee.sqrt
        = some (.finite s)
      ∧ |(s.value : ℝ) - Real.sqrt (exact x x n)| ≤ normError x n := by
  obtain ⟨r, hrun, herr, -⟩ := within_rounds ha ha hrange _ (le_refl _)
  obtain ⟨w, hrun', hw, -⟩ := squares_rounds ha _ (le_refl _)
  have hr : 0 ≤ r.value := by
    rw [hrun] at hrun'
    cases hrun'
    exact hw
  obtain ⟨s, hs, hroot⟩ := CPetIeee.sqrt_finite hr
  refine ⟨s, by rw [hrun, Option.map_some, hs], ?_⟩
  have hu : (0 : ℝ) ≤ unit := by exact_mod_cast CPetIeee.unit_pos.le
  have he : (0 : ℝ) ≤ tiny := by exact_mod_cast CPetIeee.tiny_pos.le
  have hsame : total x x n = exact x x n :=
    Finset.sum_congr rfl (fun i _ => abs_mul_self _)
  have hnonneg : 0 ≤ exact x x n := hsame ▸ total_nonneg x x n
  have hdist : |(r.value : ℝ) - exact x x n|
      ≤ ((1 + unit) ^ n - 1) * exact x x n + n * (1 + unit) ^ n * tiny := by
    rw [dotError, deviation, hsame] at herr
    have h := Rat.cast_le (K := ℝ) |>.mpr herr
    push_cast at h
    exact h
  have hbound := sqrt_within hu
    (sub_nonneg.mpr (one_le_pow₀ (by linarith)))
    (mul_nonneg (mul_nonneg (Nat.cast_nonneg n) (pow_nonneg (by linarith) n)) he)
    (by exact_mod_cast hr) (by exact_mod_cast hnonneg) hdist hroot
  rw [normError, pow_succ']
  rw [add_sub_cancel] at hbound
  exact hbound

/-- **NORM**: within the range the norm is finite; its relative error is that of
    `n + 1` operations, beside what the squares lost below the normal range. -/
theorem norm2_within (ha : HasDoubles a a.dims.toNat x) (hrange : InRange x x a.dims.toNat) :
    ∃ r, norm2 Ieee.sqrt a = some (.finite r)
      ∧ |(r.value : ℝ) - Real.sqrt (exact x x a.dims.toNat)|
        ≤ ((1 + unit) ^ (a.dims.toNat + 1) - 1) * Real.sqrt (exact x x a.dims.toNat)
          + (1 + unit) * Real.sqrt (a.dims.toNat * (1 + unit) ^ a.dims.toNat * tiny) :=
  norm_of_rounds ha hrange

/-- The bound for the norm of 1, 2, 3. -/
theorem norm2_within_oneTwoThree :
    ∃ r, norm2 Ieee.sqrt oneTwoThree = some (.finite r)
      ∧ |(r.value : ℝ) - Real.sqrt (exact countThree countThree 3)|
        ≤ ((1 + unit) ^ (3 + 1) - 1) * Real.sqrt (exact countThree countThree 3)
          + (1 + unit) * Real.sqrt ((3 : Nat) * (1 + unit) ^ 3 * tiny) :=
  norm2_within hasDoubles_oneTwoThree inRange_oneTwoThree

end CPetVectorError
