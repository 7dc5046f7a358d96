import CPet.AssertsProofs
import CPet.DecimalProofs
import CPet.IeeeProofs

/-! # `assertEqualsDouble`

    Two doubles are accepted when their rounded distance does not exceed the
    tolerance.  So no two values within the tolerance are rejected, and values
    beyond it pass only if their distance is rounded down to it.  A
    not-a-number compares with nothing and is always accepted.

    The message of a failure is put together in 1024 bytes.  The longest double
    has 309 digits before its point, so that it always fits, unlike the message
    for two strings. -/

namespace CPetAssertsDouble

open CPetDecimal CPetFormat CPetStrconcat CPetAsserts CPetRounding CPetDouble
open CPetIeee (Ieee largest)

/-- The magnitude in millionths, as `%f` rounds it. -/
def millionths (v : Double) : Nat := (roundHalfEven (10 ^ 6 * |v.value|)).toNat

/-- The text of `%f`, but for the sign of a zero: the two zeros are one value here. -/
def fText : Ieee → List UInt8
  | .finite v =>
      if v.value < 0 then minus :: fixedPoint 6 (millionths v) else fixedPoint 6 (millionths v)
  | .infinite negative => literalBytes (if negative then "-inf" else "inf")
  -- the longer one of its two texts; a not-a-number is never rejected, and so never shown
  | .nan => literalBytes "-nan"

/-- The format of the message. -/
def doubleFormat : List (Piece UInt8) := parse "Expected: %f,\n  Actual: %f\n".toList

/-- The message. -/
def doubleMessage (expected actual : Ieee) : List UInt8 :=
  render doubleFormat [fText expected, fText actual]

/-- `fabs(expected - actual) > absError` -/
def rejects (expected actual absError : Ieee) : Bool := absError.lt (expected - actual).abs

/-- `assertEqualsDouble(expected, actual, absError)`. -/
def assertEqualsDouble (expected actual absError : Ieee) (s : AssertState) : AssertState :=
  if rejects expected actual absError then
    let s := logError (literalBytes "Test failed:") s
    let s := sprintfTo 1024 (doubleMessage expected actual) s
    let s := logError (doubleMessage expected actual) s
    { s with aborted := true }
  else s

/-! ## Which values pass -/

/-- The call returns, and has done nothing. -/
def Passes (expected actual absError : Ieee) : Prop :=
  ∀ s, assertEqualsDouble expected actual absError s = s

theorem passes_iff_not_rejects (expected actual absError : Ieee) :
    Passes expected actual absError ↔ rejects expected actual absError = false := by
  constructor
  · intro h
    by_contra hreject
    have hs := h ⟨[], [], false⟩
    rw [assertEqualsDouble, if_pos (Bool.not_eq_false _ ▸ hreject)] at hs
    exact Bool.noConfusion (congrArg AssertState.aborted hs)
  · intro h s
    rw [assertEqualsDouble, h, if_neg Bool.false_ne_true]

/-- Two doubles pass when their rounded distance is at most the tolerance. -/
theorem passes_iff_nearest (e a t : Double) :
    Passes (.finite e) (.finite a) (.finite t)
      ↔ CPetIeee.nearest |e.value - a.value| ≤ t.value := by
  rw [passes_iff_not_rejects, rejects]
  rcases CPetIeee.abs_sub_finite e a with ⟨d, hd, hvalue⟩ | ⟨hinf, hlt⟩
  · rw [hd, Ieee.lt, decide_eq_false_iff_not, not_lt, hvalue]
  · rw [hinf, Ieee.lt]
    refine iff_of_false Bool.noConfusion (not_le.mpr ?_)
    exact ((le_abs_self _).trans (CPetIeee.abs_value_le t)).trans_lt hlt

/-- **ACCEPTED**: two doubles pass exactly when they are within the tolerance, or
    their distance is rounded to it. -/
theorem assertEqualsDouble_passes_iff (e a t : Double) :
    Passes (.finite e) (.finite a) (.finite t)
      ↔ |e.value - a.value| ≤ t.value ∨ CPetIeee.nearest |e.value - a.value| = t.value := by
  rw [passes_iff_nearest]
  have hdist := abs_nonneg (e.value - a.value)
  constructor
  · intro hle
    by_cases hwithin : |e.value - a.value| ≤ t.value
    · exact .inl hwithin
    · -- beyond the tolerance, the distance is not rounded below it
      right
      have ht : 0 ≤ t.value := (CPetIeee.nearest_nonneg hdist).trans hle
      exact le_antisymm hle (CPetIeee.le_nearest_of_le ht (not_le.mp hwithin).le)
  · rintro (hwithin | hround)
    · exact CPetIeee.nearest_le_of_le hdist hwithin
    · exact hround.le

/-- **NO TOLERANCE**: with a tolerance of 0 exactly equal values pass. -/
theorem passes_zero_iff (e a t : Double) (ht : t.value = 0) :
    Passes (.finite e) (.finite a) (.finite t) ↔ e.value = a.value := by
  have hsum : e.value - a.value = e.value + (CPetIeee.negDouble a).value := by
    rw [CPetIeee.value_negDouble, sub_eq_add_neg]
  have hnonneg := CPetIeee.nearest_nonneg (abs_nonneg (e.value - a.value))
  have hle : CPetIeee.nearest |e.value - a.value| ≤ 0
      ↔ CPetIeee.nearest |e.value - a.value| = 0 :=
    ⟨fun h => le_antisymm h hnonneg, le_of_eq⟩
  rw [passes_iff_nearest, ht, hle, ← CPetIeee.abs_nearest, abs_eq_zero, hsum,
    CPetIeee.nearest_add_eq_zero_iff, ← hsum, sub_eq_zero]

/-- **NOT-A-NUMBER** passes, whatever was expected. -/
theorem passes_nan (x y : Ieee) :
    Passes x .nan y ∧ Passes .nan x y ∧ Passes x y .nan := by
  have hright : x - Ieee.nan = .nan := by
    show Ieee.add x (Ieee.neg .nan) = _
    cases x with
    | finite v => rw [Ieee.neg, Ieee.add]; exact Ieee.noConfusion
    | infinite negative => rw [Ieee.neg, Ieee.add]; exact Ieee.noConfusion
    | nan => rw [Ieee.add]
  have hleft : Ieee.nan - x = .nan := by
    show Ieee.add .nan (Ieee.neg x) = _
    rw [Ieee.add]
  have hcompare : ∀ w : Ieee, w.lt .nan = false := by
    intro w
    cases w with
    | finite v => rfl
    | infinite negative => rfl
    | nan => rfl
  refine ⟨?_, ?_, ?_⟩
  · rw [passes_iff_not_rejects, rejects, hright]
    exact hcompare y
  · rw [passes_iff_not_rejects, rejects, hleft]
    exact hcompare y
  · rw [passes_iff_not_rejects, rejects, Ieee.lt]

/-! ## The length of the message -/

theorem literals_doubleFormat : literals doubleFormat = 23 := by decide

theorem conversions_doubleFormat : conversions doubleFormat = 2 := by decide

/-- The largest double has 309 digits before its point, and keeps them when rounded. -/
theorem millionths_lt (v : Double) : millionths v / 10 ^ 6 < 10 ^ 309 := by
  have hrange : |v.value| < 2 * 10 ^ 308 := by
    have hpow : (2 : ℚ) ^ (1024 : ℤ) < 2 * 10 ^ 308 := by
      have hsplit : (2 : ℚ) ^ (1024 : ℤ) = 2 * (2 ^ 93) ^ 11 := by
        rw [← pow_mul, ← pow_succ', ← zpow_natCast]
        rfl
      have hten : (10 : ℚ) ^ 308 = (10 ^ 28) ^ 11 := by rw [← pow_mul]
      rw [hsplit, hten]
      exact mul_lt_mul_of_pos_left (pow_lt_pow_left₀ (by norm_num) (by norm_num) (by decide))
        two_pos
    exact (CPetIeee.abs_value_le v).trans_lt (CPetIeee.largest_lt_range.trans hpow)
  have hbig : (1 : ℚ) ≤ 10 ^ 308 := one_le_pow₀ (by norm_num)
  have hbound : ((10 ^ 309 : ℕ) : ℚ) = 10 * 10 ^ 308 := by
    rw [Nat.cast_pow, Nat.cast_ofNat, pow_succ']
  generalize (10 : ℚ) ^ 308 = scale at *
  generalize 10 ^ 309 = bound at *
  have hround : roundHalfEven (10 ^ 6 * |v.value|) ≤ 10 ^ 6 * bound - 1 := by
    refine (nearest_roundHalfEven _).le_of_le ?_
    push_cast
    rw [hbound]
    linarith
  have hpos : (0 : ℚ) < bound := by
    rw [hbound]
    linarith
  have hpos' : 0 < bound := by exact_mod_cast hpos
  rw [Nat.div_lt_iff_lt_mul (by norm_num), millionths]
  omega

/-- A double takes at most 317 bytes. -/
theorem length_fText_le (w : Ieee) : (fText w).length ≤ 317 := by
  cases w with
  | finite v =>
      have hdigits := (length_digitBytes_le_iff (by decide)).mpr (millionths_lt v)
      have hlen : (fixedPoint 6 (millionths v)).length ≤ 316 := by
        rw [length_fixedPoint]
        omega
      rw [fText]
      split
      · rw [List.length_cons]
        omega
      · omega
  | infinite negative =>
      cases negative with
      | true => decide
      | false => decide
  | nan => decide

/-- **FITS**: the message for two doubles always fits its buffer. -/
theorem fits_doubleMessage (expected actual : Ieee) :
    Fits 1024 (doubleMessage expected actual) := by
  have he := length_fText_le expected
  have ha := length_fText_le actual
  rw [Fits, doubleMessage, length_render _ _ (by rw [conversions_doubleFormat]; rfl),
    literals_doubleFormat]
  simp only [List.flatten_cons, List.flatten_nil, List.length_append, List.length_nil]
  omega

/-- A call stores inside its buffer, whether the values pass or not. -/
theorem storesInside_assertEqualsDouble (expected actual absError : Ieee) (s : AssertState) :
    StoresInside s (assertEqualsDouble expected actual absError s) := by
  rw [assertEqualsDouble]
  split
  · exact (storesInside_sprintfTo_iff 1024 _ s).mpr (fits_doubleMessage expected actual)
  · exact ⟨[], rfl, fun st hst => absurd hst List.not_mem_nil⟩

end CPetAssertsDouble
