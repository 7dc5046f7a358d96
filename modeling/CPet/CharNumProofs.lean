import CPet.CStringProofs
import CPet.FormatProofs
import CPet.LogarithmProofs
import CPet.SumProofs
import CPet.VectorErrorProofs

/-! # `charNum`

    The room for the text of an `int` is computed in doubles, as the logarithm to
    the base 10, rounded up, and one more.  `log10` is the one of the library: it
    is near the logarithm, and not said to be exact anywhere.

    There is no room for a number that is not positive, since the conversion of an
    infinity or a not-a-number back to `int` is undefined.  Else the room is that of
    the digits and the terminator, but for powers of ten: those lose the byte of
    the terminator, unless their logarithm is computed too large. -/

namespace CPetCharNum

open CPetDecimal CPetCString CPetFormat CPetDouble CPetSum CPetLogarithm
open CPetVectorError (onGrid zero_grid value_onGrid_zero)
open CPetIeee (Ieee finite_add_finite finite_mul_finite round_value)

/-! ## The function -/

theorem abs_toInt_lt (num : Int32) : |num.toInt| < 2 ^ 53 := by
  have hlow := num.le_toInt
  have hhigh := num.toInt_lt
  rw [abs_lt]
  omega

/-- An `int` as a `double`. -/
def ofInt (num : Int32) : Double :=
  onGrid 0 num.toInt zero_grid (abs_toInt_lt num)

/-- `ceil(x)` -/
def ceil : Ieee → Ieee
  | .finite v => CPetIeee.round ⌈v.value⌉
  | .infinite negative => .infinite negative
  | .nan => .nan

/-- A number without its fraction. -/
def truncate (x : ℚ) : ℤ := if 0 ≤ x then ⌊x⌋ else ⌈x⌉

/-- `(int)x`, which is undefined when the integral part is not an `int`. -/
def toInt : Ieee → Option Int32
  | .finite v =>
      if FitsInt (truncate v.value) then some (Int32.ofInt (truncate v.value)) else none
  | .infinite _ => none
  | .nan => none

/-- `charNum(num)`; `sizeof(char)` is a factor of 1. -/
def charNum (log10 : Double → Ieee) (num : Int32) : Option Int32 :=
  toInt ((ceil (log10 (ofInt num)) + .finite (ofInt 1)) * .finite (ofInt 1))

/-! ## The logarithm -/

/-- How far a computed logarithm is off; the documented error is far smaller. -/
def accuracy : ℚ := 2 ^ (-40 : ℤ)

/-- What the documentation of `log10` says about one argument: a pole at 0, an error
    below, and above a double near the logarithm. -/
structure Computes (log10 : Double → Ieee) (v : Double) : Prop where
  zero : v.value = 0 → log10 v = .infinite true
  negative : v.value < 0 → log10 v = .nan
  positive : 0 < v.value →
    ∃ r, log10 v = .finite r ∧ |(r.value : ℝ) - Real.logb 10 v.value| ≤ accuracy

/-- A power of ten whose logarithm is not computed too large. -/
def Short (log10 : Double → Ieee) (num : Int32) : Prop :=
  ∃ (k : ℕ) (r : Double), num.toInt = 10 ^ k ∧ log10 (ofInt num) = .finite r ∧ r.value ≤ k

theorem value_ofInt (num : Int32) : (ofInt num).value = num.toInt := value_onGrid_zero _

/-- The error is small next to all numbers of type `int`. -/
theorem accuracy_small {n : ℕ} (hn : n < 2 ^ 31) :
    (accuracy : ℝ) * ((10 : ℕ) * n * Real.log (10 : ℕ)) < 1 := by
  have hlog : Real.log (10 : ℕ) ≤ 9 := by
    have h := Real.log_le_sub_one_of_pos (x := ((10 : ℕ) : ℝ)) (by norm_num)
    push_cast at h ⊢
    linarith
  have hn' : (n : ℝ) ≤ 2 ^ 31 := by exact_mod_cast hn.le
  have hprod : ((10 : ℕ) : ℝ) * n * Real.log (10 : ℕ) ≤ 10 * 2 ^ 31 * 9 := by
    refine mul_le_mul ?_ hlog (Real.log_nonneg (by norm_num)) (by norm_num)
    push_cast
    linarith
  have hvalue : (accuracy : ℝ) = (2 ^ 40)⁻¹ := by
    rw [accuracy]
    norm_num
  rw [hvalue, inv_mul_lt_iff₀ (by norm_num)]
  linarith

/-! ## Small integers among the doubles -/

/-- Small integers are not rounded. -/
theorem round_small {z : ℤ} (h : |z| < 2 ^ 53) :
    ∃ r, CPetIeee.round z = .finite r ∧ r.value = z := by
  obtain ⟨r, hr, hvalue⟩ := round_value (onGrid 0 z zero_grid h)
  rw [value_onGrid_zero] at hr hvalue
  exact ⟨r, hr, hvalue⟩

/-- **ONE MORE**: from a logarithm on, the computation is exact. -/
theorem charNum_of_log {log10 : Double → Ieee} {num : Int32} {r : Double}
    (hlog : log10 (ofInt num) = .finite r) (hlow : 0 ≤ ⌈r.value⌉) (hhigh : ⌈r.value⌉ < 2 ^ 30) :
    ∃ n, charNum log10 num = some n ∧ n.toInt = ⌈r.value⌉ + 1 := by
  have hone : (ofInt 1).value = 1 := by
    rw [value_ofInt]
    rfl
  obtain ⟨c, hc, hcvalue⟩ := round_small (z := ⌈r.value⌉) (by rw [abs_lt]; omega)
  obtain ⟨s, hs, hsvalue⟩ := round_small (z := ⌈r.value⌉ + 1) (by rw [abs_lt]; omega)
  have hsum : Ieee.finite c + .finite (ofInt 1) = .finite s := by
    rw [finite_add_finite, hcvalue, hone, ← hs]
    push_cast
    rfl
  have hprod : ∃ t, Ieee.finite s * .finite (ofInt 1) = .finite t ∧ t.value = s.value := by
    rw [finite_mul_finite, hone, mul_one]
    exact round_value s
  obtain ⟨t, ht, htvalue⟩ := hprod
  have htrunc : truncate t.value = ⌈r.value⌉ + 1 := by
    rw [htvalue, hsvalue, truncate, if_pos (by exact_mod_cast (by omega : 0 ≤ ⌈r.value⌉ + 1)),
      Int.floor_intCast]
  refine ⟨Int32.ofInt (⌈r.value⌉ + 1), ?_, ?_⟩
  · rw [charNum, hlog, ceil, hc, hsum, ht, toInt, htrunc, if_pos ⟨by omega, by omega⟩]
  · exact Int32.toInt_ofInt_of_le (by omega) (by omega)

/-! ## The room -/

/-- The number of digits. -/
theorem length_digitBytes {n : ℕ} (hn : 0 < n) : (digitBytes n).length = Nat.log 10 n + 1 := by
  refine Nat.le_antisymm ?_ ?_
  · rw [length_digitBytes_le_iff (Nat.succ_pos _)]
    exact Nat.lt_pow_succ_log_self (by decide) n
  · by_contra hshort
    have hpos : 0 < (digitBytes n).length := List.length_pos_iff.mpr (digitBytes_ne_nil n)
    have hlt : n < 10 ^ Nat.log 10 n := (length_digitBytes_le_iff (by omega)).mp (by omega)
    exact absurd (Nat.pow_log_le_self 10 hn.ne') (Nat.not_le.mpr hlt)

/-- There is no room for a number that is not positive. -/
theorem charNum_of_nonpos {log10 : Double → Ieee} {num : Int32}
    (hlog : Computes log10 (ofInt num)) (hnum : num.toInt ≤ 0) : charNum log10 num = none := by
  rcases Int.lt_or_eq_of_le hnum with hneg | hzero
  · rw [charNum, hlog.negative (by rw [value_ofInt]; exact_mod_cast hneg)]
    rfl
  · rw [charNum, hlog.zero (by rw [value_ofInt, hzero, Int.cast_zero])]
    rfl

/-- **ROOM FOR DIGITS**, and for one byte more when the number is no power of ten or
    its logarithm is computed too large. -/
theorem charNum_of_pos {log10 : Double → Ieee} {num : Int32} (hlog : Computes log10 (ofInt num))
    (hnum : 0 < num.toInt) :
    ∃ n, charNum log10 num = some n
      ∧ ((n.toInt = (ldText num.toInt).length ∧ Short log10 num)
        ∨ (n.toInt = (ldText num.toInt).length + 1 ∧ ¬ Short log10 num)) := by
  obtain ⟨n, hn⟩ := Int.eq_ofNat_of_zero_le hnum.le
  have hpos : 0 < n := by omega
  have hlt : n < 2 ^ 31 := by
    have h := num.toInt_lt
    omega
  have hten : 1 < 10 := by decide
  obtain ⟨r, hr, hnear⟩ := hlog.positive (by rw [value_ofInt]; exact_mod_cast hnum)
  rw [value_ofInt, hn, Rat.cast_intCast, Int.cast_natCast] at hnear
  have hceil := ceil_near hten hpos (by exact_mod_cast hnear) (accuracy_small hlt)
  rw [Rat.ceil_cast] at hceil
  have hlogle : Nat.log 10 n < 31 := by
    refine (Nat.log_lt_iff_lt_pow hten hpos.ne').mpr (hlt.trans_le ?_)
    norm_num
  have hlength : (ldText num.toInt).length = Nat.log 10 n + 1 := by
    rw [ldText, if_neg (not_lt.mpr hnum.le), hn, ← length_digitBytes hpos]
    rfl
  obtain ⟨m, hm, hmvalue⟩ := charNum_of_log hr (by rw [hceil]; split <;> omega)
    (by rw [hceil]; split <;> omega)
  refine ⟨m, hm, ?_⟩
  rw [hmvalue, hceil, hlength]
  by_cases hle : (r.value : ℝ) ≤ Nat.log 10 n
  · left
    refine ⟨by rw [if_pos hle]; push_cast; ring, Nat.log 10 n, r, ?_, hr, by exact_mod_cast hle⟩
    have hpower := eq_pow_of_near hten hpos (by exact_mod_cast hnear) (accuracy_small hlt) hle
    rw [hn]
    exact_mod_cast hpower
  · right
    refine ⟨by rw [if_neg hle]; push_cast; ring, ?_⟩
    rintro ⟨k, r', hk, hr', hle'⟩
    have hpower : n = 10 ^ k := by
      rw [hn] at hk
      exact_mod_cast hk
    rw [hr] at hr'
    cases hr'
    rw [hpower, Nat.log_pow hten] at hle
    exact hle (by exact_mod_cast hle')

/-- **THE ROOM** is defined for positive numbers only, and there it is enough for the
    text with its terminator except at powers of ten whose logarithm is not
    computed too large. -/
theorem charNum_room {log10 : Double → Ieee} {num : Int32} (hlog : Computes log10 (ofInt num)) :
    (charNum log10 num = none ↔ num.toInt ≤ 0)
      ∧ ∀ n, charNum log10 num = some n →
          (ldText num.toInt).length ≤ n.toInt ∧ n.toInt ≤ (ldText num.toInt).length + 1
            ∧ (Fits n.toInt.toNat (ldText num.toInt) ↔ ¬ Short log10 num) := by
  by_cases hnum : num.toInt ≤ 0
  · have hnone := charNum_of_nonpos hlog hnum
    refine ⟨iff_of_true hnone hnum, ?_⟩
    intro n hn
    rw [hnone] at hn
    cases hn
  obtain ⟨m, hm, hroom⟩ := charNum_of_pos hlog (not_le.mp hnum)
  refine ⟨iff_of_false (by rw [hm]; exact Option.some_ne_none m) hnum, ?_⟩
  intro n hn
  rw [hm] at hn
  cases hn
  rw [Fits]
  rcases hroom with ⟨hlength, hshort⟩ | ⟨hlength, hshort⟩
  · exact ⟨by omega, by omega, iff_of_false (by omega) (not_not.mpr hshort)⟩
  · exact ⟨by omega, by omega, iff_of_true (by omega) hshort⟩

/-- The `log10` of 1000. -/
def log10Thousand (_ : Double) : Ieee := .finite (ofInt 3)

theorem computes_log10Thousand : Computes log10Thousand (ofInt 1000) := by
  have hvalue : (ofInt 1000).value = 1000 := by
    rw [value_ofInt]
    rfl
  refine ⟨fun h => ?_, fun h => ?_, fun _ => ⟨ofInt 3, rfl, ?_⟩⟩
  · rw [hvalue] at h
    norm_num at h
  · rw [hvalue] at h
    norm_num at h
  · have hlogb := logb_pow_self (b := 10) (by decide) 3
    have hthree : (ofInt 3).value = 3 := by
      rw [value_ofInt]
      rfl
    norm_num at hlogb
    rw [hvalue, hthree]
    push_cast
    have haccuracy : 0 ≤ accuracy := (zpow_pos two_pos _).le
    rw [hlogb, sub_self, abs_zero]
    exact_mod_cast haccuracy

/-- Four bytes for the digits of 1000, and none for the terminator. -/
theorem charNum_room_thousand :
    Short log10Thousand 1000
      ∧ (charNum log10Thousand 1000 = none ↔ Int32.toInt 1000 ≤ 0)
      ∧ ∀ n, charNum log10Thousand 1000 = some n →
          (ldText (Int32.toInt 1000)).length ≤ n.toInt
            ∧ n.toInt ≤ (ldText (Int32.toInt 1000)).length + 1
            ∧ (Fits n.toInt.toNat (ldText (Int32.toInt 1000)) ↔ ¬ Short log10Thousand 1000) := by
  have hthree : (ofInt 3).value = ((3 : ℕ) : ℚ) := by
    rw [value_ofInt]
    rfl
  exact ⟨⟨3, ofInt 3, by decide, rfl, hthree.le⟩, charNum_room computes_log10Thousand⟩

end CPetCharNum
