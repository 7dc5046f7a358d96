import CPet.DecimalProofs
import CPet.DoubleProofs
import CPet.ToStringProofs

/-! # The cells of a printed matrix are doubles

    `Matrix_toString` formats a double with `%ld` when it is within 1e-4 of an
    integer and with `%.2f` otherwise; the arithmetic is exact.  `lround` is
    fixed on the doubles whose rounding a `long` holds, and any `long`
    elsewhere.

    Two results.  Which doubles fit the 20-byte buffer: integers up to 1e18
    (down to -1e17), the others only up to 1e15 (-1e14), where a double still
    has a fractional part.  And the two branches denote the same number, the
    value rounded to hundredths, exactly on the range of `long`.

    A matrix whose cells fit the buffer is then read back, to hundredths, from
    the text printed for it. -/

namespace CPetDoubleFormat

open CPetMemory CPetCString CPetRun CPetMatrix CPetStrconcat CPetStringBuilder
open CPetDelimited CPetDecimal CPetRounding CPetDouble CPetToString

/-! ## `lround` -/

/-- The value is one of `long`. -/
def IsLong (n : ℤ) : Prop := -2 ^ 63 - 1 < n ∧ n < 2 ^ 63

/-- `lround`: half away from zero when the result is a `long`, and otherwise
    an unspecified `long`. -/
structure Lround where
  toFun : Double → ℤ
  isLong : ∀ v, IsLong (toFun v)
  exact : ∀ v, IsLong (roundHalfAway v.value) → toFun v = roundHalfAway v.value

instance (n : ℤ) : Decidable (IsLong n) := inferInstanceAs (Decidable (_ ∧ _))

/-- The `lround` that answers `LONG_MIN` out of range. -/
def lroundMin : Lround where
  toFun := fun v => if IsLong (roundHalfAway v.value) then roundHalfAway v.value else -2 ^ 63
  isLong := by
    intro v
    by_cases h : IsLong (roundHalfAway v.value)
    · rw [if_pos h]
      exact h
    · rw [if_neg h]
      decide
  exact := fun v h => if_pos h

/-! ## The two branches -/

/-- `nearbyint(v)` in the default rounding mode. -/
def nearbyint (v : Double) : ℤ := roundHalfEven v.value

/-- The double that `1e-4` stands for. -/
def threshold : ℚ := 7378697629483821 / 2 ^ 66

/-- `fabs(nearbyint(v) - v) < 1e-4` -/
def nearInteger (v : Double) : Bool := decide (|(nearbyint v : ℚ) - v.value| < threshold)

/-- The magnitude in hundredths, as `%.2f` rounds it. -/
def hundredths (v : Double) : Nat := (roundHalfEven (100 * |v.value|)).toNat

/-- The text of `%.2f`. -/
def f2Text (v : Double) : List UInt8 :=
  if v.value < 0 then minus :: fixedPoint 2 (hundredths v) else fixedPoint 2 (hundredths v)

/-- The formats of `Matrix_toString`, for a given `lround`. -/
def doubleFormat (lround : Lround) : CellFormat Double where
  nearInteger := nearInteger
  lround := lround.toFun
  f2Text := f2Text

theorem near_iff {v : Double} :
    nearInteger v = true ↔ |v.value - nearbyint v| < threshold := by
  rw [nearInteger, decide_eq_true_eq, abs_sub_comm]

/-- Integers are near an integer. -/
theorem near_of_int {v : Double} {z : ℤ} (h : v.value = z) : nearInteger v = true := by
  rw [near_iff, nearbyint, h, roundHalfEven_intCast, sub_self, abs_zero]
  norm_num [threshold]

/-- Doubles that are not near an integer are below `2 ^ 52`. -/
theorem abs_lt_of_not_near {v : Double} (h : ¬ nearInteger v = true) : |v.value| < 2 ^ 52 := by
  by_contra hbig
  obtain ⟨z, hz⟩ := v.exists_int (not_lt.mp hbig)
  exact h (near_of_int hz)

/-- **ONE ROUNDING**: near an integer, `lround` rounds as `nearbyint` does. -/
theorem roundHalfAway_of_near {v : Double} (h : nearInteger v = true) :
    roundHalfAway v.value = nearbyint v := by
  refine (nearest_roundHalfAway v.value).eq_of_lt ((near_iff.mp h).trans ?_)
  norm_num [threshold]

/-- The doubles that fit in `long`. -/
def FitsLong (v : Double) : Prop := -2 ^ 63 ≤ v.value ∧ v.value < 2 ^ 63

theorem isLong_round_iff {v : Double} {n : ℤ} (h : Nearest v.value n) :
    IsLong n ↔ FitsLong v := by
  rcases v.nearest_cases h with heq | ⟨hsmall, hlow, hhigh⟩
  · rw [IsLong, FitsLong, heq]
    constructor
    · rintro ⟨hmin, hmax⟩
      have hmin' : -2 ^ 63 ≤ n := by omega
      exact ⟨by exact_mod_cast hmin', by exact_mod_cast hmax⟩
    · rintro ⟨hmin, hmax⟩
      have hmin' : -2 ^ 63 ≤ n := by exact_mod_cast hmin
      exact ⟨by omega, by exact_mod_cast hmax⟩
  · obtain ⟨hv, hv'⟩ := abs_lt.mp hsmall
    constructor
    · rintro -
      exact ⟨by linarith, by linarith⟩
    · rintro -
      exact ⟨by omega, by omega⟩

/-- What the integer branch prints of a double that fits in `long`. -/
theorem lround_of_near {lround : Lround} {v : Double} (h : nearInteger v = true)
    (hfits : FitsLong v) : lround.toFun v = nearbyint v := by
  rw [lround.exact v ((isLong_round_iff (nearest_roundHalfAway v.value)).mpr hfits),
    roundHalfAway_of_near h]

/-! ## The buffer -/

/-- The length of the text of `%ld`, for either sign. -/
theorem length_ldText_le_iff {k : Nat} (hk : 0 < k) (n : ℤ) :
    (ldText n).length ≤ k + 1 ↔ -10 ^ k < n ∧ n < 10 ^ (k + 1) := by
  have hpow : (0 : ℤ) < 10 ^ k := pow_pos (by norm_num) k
  have hpow' : (0 : ℤ) < 10 ^ (k + 1) := pow_pos (by norm_num) (k + 1)
  have hcast : ∀ j : Nat, n.natAbs < 10 ^ j ↔ (n.natAbs : ℤ) < 10 ^ j := by
    intro j
    norm_cast
  rw [ldText]
  by_cases hneg : n < 0
  · have habs : (n.natAbs : ℤ) = -n := Int.ofNat_natAbs_of_nonpos hneg.le
    rw [if_pos hneg, List.length_cons, Nat.add_le_add_iff_right, length_digitBytes_le_iff hk,
      hcast, habs]
    constructor
    · intro h
      exact ⟨by linarith, by linarith⟩
    · rintro ⟨h, -⟩
      linarith
  · have habs : (n.natAbs : ℤ) = n := Int.natAbs_of_nonneg (not_lt.mp hneg)
    rw [if_neg hneg, length_digitBytes_le_iff (Nat.succ_pos k), hcast, habs]
    constructor
    · intro h
      exact ⟨by linarith, h⟩
    · rintro ⟨-, h⟩
      exact h

/-- **NO CARRY**: below a power of ten a double is so far from it that its
    hundredths are too. -/
theorem hundredths_lt_iff {v : Double} {k : Nat} (hk : 14 ≤ k) :
    hundredths v / 10 ^ 2 < 10 ^ k ↔ |v.value| < 10 ^ k := by
  have hpowZ : (2 : ℤ) ^ 46 < 10 ^ k :=
    lt_of_lt_of_le (by norm_num) (pow_le_pow_right₀ (by norm_num) hk)
  have hround := nearest_roundHalfEven (100 * |v.value|)
  have hnat : hundredths v / 10 ^ 2 < 10 ^ k
      ↔ roundHalfEven (100 * |v.value|) < 100 * 10 ^ k := by
    rw [Nat.div_lt_iff_lt_mul (by norm_num), hundredths, mul_comm]
    have hbound : (100 * 10 ^ k : ℤ) = ((10 ^ 2 * 10 ^ k : ℕ) : ℤ) := by norm_num
    have hpos : 0 < 10 ^ 2 * 10 ^ k := by positivity
    rw [hbound]
    omega
  rw [hnat]
  constructor
  · intro h
    by_contra hge
    have hle := not_lt.mp hge
    have hlow : 100 * 10 ^ k ≤ roundHalfEven (100 * |v.value|) := by
      refine hround.ge_of_ge ?_
      push_cast
      linarith
    exact absurd h (not_lt.mpr hlow)
  · intro h
    have hhigh : roundHalfEven (100 * |v.value|) ≤ 100 * 10 ^ k - 1 := by
      refine hround.le_of_le ?_
      push_cast
      -- the gap to the bound is more than half a hundredth
      have hgap := v.abs_le_sub_of_lt (b := 10 ^ k) hpowZ (by exact_mod_cast h)
      push_cast at hgap
      linarith
    omega

/-- The length of the text of `%.2f`, for either sign. -/
theorem length_f2Text_le_iff {k : Nat} (hk : 14 ≤ k) (v : Double) :
    (f2Text v).length ≤ k + 4 ↔ -10 ^ k < v.value ∧ v.value < 10 ^ (k + 1) := by
  have hpow : (0 : ℚ) < 10 ^ k := pow_pos (by norm_num) k
  have hpow' : (0 : ℚ) < 10 ^ (k + 1) := pow_pos (by norm_num) (k + 1)
  rw [f2Text]
  by_cases hneg : v.value < 0
  · rw [if_pos hneg, List.length_cons, length_fixedPoint]
    have hlen : (digitBytes (hundredths v / 10 ^ 2)).length + (2 + 1) + 1 ≤ k + 4
        ↔ (digitBytes (hundredths v / 10 ^ 2)).length ≤ k := by omega
    rw [hlen, length_digitBytes_le_iff (by omega), hundredths_lt_iff hk, abs_of_neg hneg]
    constructor
    · intro h
      exact ⟨by linarith, by linarith⟩
    · rintro ⟨h, -⟩
      linarith
  · have hnonneg := not_lt.mp hneg
    rw [if_neg hneg, length_fixedPoint]
    have hlen : (digitBytes (hundredths v / 10 ^ 2)).length + (2 + 1) ≤ k + 4
        ↔ (digitBytes (hundredths v / 10 ^ 2)).length ≤ k + 1 := by omega
    rw [hlen, length_digitBytes_le_iff (Nat.succ_pos k), hundredths_lt_iff (by omega),
      abs_of_nonneg hnonneg]
    constructor
    · intro h
      exact ⟨by linarith, h⟩
    · rintro ⟨-, h⟩
      exact h

theorem cellText_of_near {lround : Lround} {v : Double} (h : nearInteger v = true) :
    cellText (doubleFormat lround) v = ldText (lround.toFun v) := if_pos h

theorem cellText_of_not_near {lround : Lround} {v : Double} (h : ¬ nearInteger v = true) :
    cellText (doubleFormat lround) v = f2Text v := if_neg h

/-- Every text is far shorter than what `sprintf` can report. -/
theorem shortText_double (lround : Lround) (v : Double) :
    ShortText (doubleFormat lround) v := by
  have hlen : (cellText (doubleFormat lround) v).length ≤ 20 := by
    by_cases hnear : nearInteger v = true
    · obtain ⟨hlow, hhigh⟩ := lround.isLong v
      rw [cellText_of_near hnear, length_ldText_le_iff (by decide)]
      exact ⟨by omega, by omega⟩
    · obtain ⟨hlow, hhigh⟩ := abs_lt.mp (abs_lt_of_not_near hnear)
      rw [cellText_of_not_near hnear, length_f2Text_le_iff (by decide)]
      norm_num at hlow hhigh ⊢
      exact ⟨by linarith, by linarith⟩
  rw [ShortText, intMax]
  omega

/-- Eighteen characters are left for the number. -/
theorem fitsBuffer_iff_length {fmt : CellFormat Double} {v : Double} :
    FitsBuffer fmt v ↔ (cellText fmt v).length ≤ 18 := by
  rw [FitsBuffer, bufferSize]
  omega

/-- `LONG_MIN` is too long. -/
theorem fitsLong_of_fitsBuffer {v : Double} (h : FitsBuffer (doubleFormat lroundMin) v) :
    FitsLong v := by
  by_cases hnear : nearInteger v = true
  · by_contra hfits
    have hout : ¬ IsLong (roundHalfAway v.value) := fun hlong =>
      hfits ((isLong_round_iff (nearest_roundHalfAway v.value)).mp hlong)
    have hmin : lroundMin.toFun v = -2 ^ 63 := if_neg hout
    rw [fitsBuffer_iff_length, cellText_of_near hnear, length_ldText_le_iff (by decide),
      hmin] at h
    exact absurd h.1 (by norm_num)
  · obtain ⟨hlow, hhigh⟩ := abs_lt.mp (abs_lt_of_not_near hnear)
    exact ⟨by linarith, by linarith⟩

/-- **THE BUFFER**: whatever `lround` makes of the values out of its range, the
    text of a cell, its tab and its NUL fit the 20 bytes exactly when the
    value is within the bound of its branch. -/
theorem fitsBuffer_iff (v : Double) :
    (∀ lround, FitsBuffer (doubleFormat lround) v)
      ↔ if nearInteger v then -10 ^ 17 < v.value ∧ v.value < 10 ^ 18
        else -10 ^ 14 < v.value ∧ v.value < 10 ^ 15 := by
  by_cases hnear : nearInteger v = true
  · rw [if_pos hnear]
    have hbetween : (-10 ^ 17 < nearbyint v ∧ nearbyint v < 10 ^ 18)
        ↔ (-10 ^ 17 < v.value ∧ v.value < 10 ^ 18) := by
      have h := v.nearest_between_iff (nearest_roundHalfEven v.value)
        (a := -10 ^ 17) (b := 10 ^ 18) (by norm_num) (by norm_num)
      push_cast at h
      exact h
    rw [← hbetween]
    constructor
    · intro h
      have hlen := fitsBuffer_iff_length.mp (h lroundMin)
      rw [cellText_of_near hnear, length_ldText_le_iff (by decide),
        lround_of_near hnear (fitsLong_of_fitsBuffer (h lroundMin))] at hlen
      exact hlen
    · intro h lround
      have hlow : -10 ^ 17 < roundHalfEven v.value := h.1
      have hhigh : roundHalfEven v.value < 10 ^ 18 := h.2
      have hfits : FitsLong v := by
        refine (isLong_round_iff (nearest_roundHalfEven v.value)).mp ?_
        exact ⟨by omega, by omega⟩
      rw [fitsBuffer_iff_length, cellText_of_near hnear, length_ldText_le_iff (by decide),
        lround_of_near hnear hfits]
      exact h
  -- `lround` is not called in the other branch
  · rw [if_neg hnear, ← length_f2Text_le_iff (le_refl 14)]
    constructor
    · intro h
      have hlen := fitsBuffer_iff_length.mp (h lroundMin)
      rw [cellText_of_not_near hnear] at hlen
      exact hlen
    · intro h lround
      rw [fitsBuffer_iff_length, cellText_of_not_near hnear]
      exact h

/-- 1e18, which is `5 ^ 18 * 2 ^ 18`. -/
def quintillion : Double := ⟨5 ^ 18, 18, by decide, by decide, by decide⟩

theorem value_quintillion : quintillion.value = ((10 ^ 18 : ℤ) : ℚ) := by
  norm_num [quintillion, Double.value]

/-- Nineteen digits, a tab and a NUL. -/
theorem fitsBuffer_fails_quintillion : ¬ FitsBuffer (doubleFormat lroundMin) quintillion := by
  have hround : nearbyint quintillion = 10 ^ 18 := by
    rw [nearbyint, value_quintillion, roundHalfEven_intCast]
  have hnear := near_of_int value_quintillion
  have hfits : FitsLong quintillion := by
    rw [FitsLong, value_quintillion]
    norm_num
  rw [fitsBuffer_iff_length, cellText_of_near hnear, length_ldText_le_iff (by decide),
    lround_of_near hnear hfits, hround]
  exact fun h => absurd h.2 (by norm_num)

/-! ## The number printed -/

theorem denoted_ldText (n : ℤ) : denoted (ldText n) = some (n : ℚ) := by
  rw [ldText, denoted_sign_digitBytes, Option.some.injEq]
  by_cases hneg : n < 0
  · have habs : (n.natAbs : ℤ) = -n := Int.ofNat_natAbs_of_nonpos hneg.le
    rw [if_pos hneg, ← Int.cast_natCast, habs, Int.cast_neg, neg_neg]
  · have habs : (n.natAbs : ℤ) = n := Int.natAbs_of_nonneg (not_lt.mp hneg)
    rw [if_neg hneg, ← Int.cast_natCast, habs]

/-- **DECIMAL PATH**: `%.2f` prints the value rounded to hundredths. -/
theorem denoted_f2Text (v : Double) : denoted (f2Text v) = some v.toHundredth := by
  have hnonneg : 0 ≤ roundHalfEven (100 * |v.value|) := by
    refine (nearest_roundHalfEven (100 * |v.value|)).ge_of_ge ?_
    have habs := abs_nonneg v.value
    push_cast
    linarith
  have hcast : (hundredths v : ℚ) = roundHalfEven (100 * |v.value|) := by
    rw [hundredths]
    exact_mod_cast Int.toNat_of_nonneg hnonneg
  rw [f2Text, denoted_sign_fixedPoint (by decide), hcast, Double.toHundredth,
    Option.some.injEq]
  by_cases hneg : v.value < 0
  · rw [if_pos hneg, abs_of_neg hneg, mul_neg, roundHalfEven_neg]
    push_cast
    ring
  · rw [if_neg hneg, abs_of_nonneg (not_lt.mp hneg)]
    norm_num

/-- Near an integer, rounding to hundredths gives that integer. -/
theorem toHundredth_of_near {v : Double} (h : nearInteger v = true) :
    v.toHundredth = nearbyint v := by
  have hdist : |100 * v.value - ((100 * nearbyint v : ℤ) : ℚ)| < 1 / 2 := by
    have hscale : 100 * v.value - ((100 * nearbyint v : ℤ) : ℚ)
        = 100 * (v.value - nearbyint v) := by
      push_cast
      ring
    rw [hscale, abs_mul, abs_of_pos (by norm_num : (0 : ℚ) < 100)]
    have hclose := near_iff.mp h
    have hsmall : threshold < 1 / 200 := by norm_num [threshold]
    linarith
  rw [Double.toHundredth, (nearest_roundHalfEven _).eq_of_lt hdist]
  push_cast
  ring

/-- The text of the cell denotes the value rounded to hundredths, the number
    the decimal path prints. -/
def AgreesWithDecimal (fmt : CellFormat Double) (v : Double) : Prop :=
  denoted (cellText fmt v) = some v.toHundredth
    ∧ denoted (cellText fmt v) = denoted (fmt.f2Text v)

/-- One half of the property is the other. -/
theorem agreesWithDecimal_iff {lround : Lround} {v : Double} :
    AgreesWithDecimal (doubleFormat lround) v
      ↔ denoted (cellText (doubleFormat lround) v) = some v.toHundredth := by
  have hdecimal : denoted ((doubleFormat lround).f2Text v) = some v.toHundredth :=
    denoted_f2Text v
  rw [AgreesWithDecimal, hdecimal, and_self]

/-- Out of the range of `long`, no `long` is the number. -/
theorem not_agrees_of_not_fitsLong {lround : Lround} {v : Double} (h : ¬ FitsLong v) :
    ¬ AgreesWithDecimal (doubleFormat lround) v := by
  have hbig : 2 ^ 52 ≤ |v.value| := by
    by_contra hlt
    obtain ⟨hlow, hhigh⟩ := abs_lt.mp (not_le.mp hlt)
    exact h ⟨by linarith, by linarith⟩
  obtain ⟨z, hz⟩ := v.exists_int hbig
  have hnear := near_of_int hz
  rw [agreesWithDecimal_iff, cellText_of_near hnear, denoted_ldText, toHundredth_of_near hnear]
  intro heq
  have hround : lround.toFun v = nearbyint v := by
    exact_mod_cast Option.some.inj heq
  have hlong := lround.isLong v
  rw [hround] at hlong
  exact h ((isLong_round_iff (nearest_roundHalfEven v.value)).mp hlong)

/-- What is printed of a double that fits in `long`. -/
theorem denoted_cellText {lround : Lround} {v : Double} (hfits : FitsLong v) :
    denoted (cellText (doubleFormat lround) v) = some v.toHundredth := by
  by_cases hnear : nearInteger v = true
  · rw [cellText_of_near hnear, denoted_ldText, toHundredth_of_near hnear,
      lround_of_near hnear hfits]
  · rw [cellText_of_not_near hnear]
    exact denoted_f2Text v

/-- **THE FAST PATH AGREES** with the decimal path exactly on the doubles that
    fit in `long`, whatever `lround` does elsewhere. -/
theorem agrees_iff_fitsLong (lround : Lround) (v : Double) :
    AgreesWithDecimal (doubleFormat lround) v ↔ -2 ^ 63 ≤ v.value ∧ v.value < 2 ^ 63 := by
  constructor
  · intro h
    by_contra hout
    exact not_agrees_of_not_fitsLong hout h
  · intro hfits
    exact agreesWithDecimal_iff.mpr (denoted_cellText hfits)

/-- 1e19, which is `5 ^ 19 * 2 ^ 19`. -/
def tenQuintillion : Double := ⟨5 ^ 19, 19, by decide, by decide, by decide⟩

/-- It prints as `-9223372036854775808` where `lround` answers `LONG_MIN`. -/
theorem agrees_fails_tenQuintillion :
    ¬ AgreesWithDecimal (doubleFormat lroundMin) tenQuintillion := by
  refine not_agrees_of_not_fitsLong ?_
  norm_num [FitsLong, tenQuintillion, Double.value]

/-! ## The printed matrix -/

theorem plainText_f2Text (v : Double) : PlainText (f2Text v) := by
  have hout : ∀ x : UInt8, x ≠ minus → x ≠ point → ¬ IsDigit x → x ∉ f2Text v := by
    intro x hminus hpoint hdigit hmem
    have hfixed : x ∉ fixedPoint 2 (hundredths v) := fun h =>
      (mem_fixedPoint h).elim hpoint hdigit
    rw [f2Text] at hmem
    by_cases hneg : v.value < 0
    · rw [if_pos hneg, List.mem_cons] at hmem
      exact hmem.elim hminus hfixed
    · rw [if_neg hneg] at hmem
      exact hfixed hmem
  exact ⟨hout tab (by decide) (by decide) (by decide),
    hout newline (by decide) (by decide) (by decide),
    hout 0 (by decide) (by decide) (by decide)⟩

/-- The values of a matrix rounded to hundredths, row by row. -/
def roundedRows (m : Matrix Double) : List (List ℚ) :=
  (List.range m.rows.toNat).map (fun r : Nat =>
    (List.range m.cols.toNat).map (fun c : Nat =>
      (matrixGet m (UInt64.ofNat r) (UInt64.ofNat c)).toHundredth))

theorem denoted_cellTexts {lround : Lround} {m : Matrix Double}
    (hfits : ∀ r c, r < m.rows → c < m.cols → FitsLong (matrixGet m r c)) :
    (cellTexts (doubleFormat lround) m).map (fun row => row.map denoted)
      = (roundedRows m).map (fun row => row.map some) := by
  rw [cellTexts, tableTexts, roundedRows, List.map_map, List.map_map]
  refine List.map_congr_left ?_
  intro r hr
  show (rowTexts (doubleFormat lround) m r m.cols.toNat).map denoted = List.map some _
  rw [rowTexts, List.map_map, List.map_map]
  refine List.map_congr_left ?_
  intro c hc
  have hcell := hfits _ _ (counter_lt (List.mem_range.mp hr)) (counter_lt (List.mem_range.mp hc))
  exact denoted_cellText hcell

/-- **READ BACK**: whatever `lround` does out of range, the text printed for a
    matrix whose cells fit the buffer parses to the table of its values,
    rounded to hundredths. -/
theorem printed_matrix_denotes {lround : Lround} {rt : Allocator} {stack : Stack}
    {m : Matrix Double}
    (hfits : ∀ r c, r < m.rows → c < m.cols →
      ∀ lround', FitsBuffer (doubleFormat lround') (matrixGet m r c))
    (hall : (matrixToString (doubleFormat lround) rt true stack m).AllSucceed) :
    ∃ p blk table,
      (matrixToString (doubleFormat lround) rt true stack m).result = some p
      ∧ (matrixToString (doubleFormat lround) rt true stack m).mem.heap.live p = some blk
      ∧ decodeTable tab newline (cells blk.cell
          (matrixToString (doubleFormat lround) rt true stack m).len.toNat) = some table
      ∧ table.map (fun row => row.map denoted)
        = (roundedRows m).map (fun row => row.map some) := by
  have hplain : ∀ v, PlainText ((doubleFormat lround).f2Text v) := plainText_f2Text
  obtain ⟨p, blk, hholds⟩ := (appended_matrixToString hplain
    (fun r c _ _ => shortText_double lround _)).accumulated hall
  have hlen := hholds.len
  refine ⟨p, blk, cellTexts (doubleFormat lround) m, hholds.result, hholds.live, ?_,
    denoted_cellTexts (fun r c hr hc => fitsLong_of_fitsBuffer (hfits r c hr hc lroundMin))⟩
  rw [hlen, hholds.text]
  exact decodeTable_cellTexts hplain

end CPetDoubleFormat
