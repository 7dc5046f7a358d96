import Mathlib.Algebra.Order.Round
import Mathlib.Tactic.Linarith
import Mathlib.Tactic.Ring

/-! # Rounding to an integer

    Two roundings to a nearest integer, which differ at ties only: ties to
    even, as `nearbyint` and the decimal conversions of `printf` round in the
    default mode, and ties away from zero, as `lround` does.

    All that is used of either is that it is at most a half away.  An integer
    closer than a half is then what both of them give. -/

namespace CPetRounding

variable {K : Type} [Field K] [LinearOrder K] [IsStrictOrderedRing K] [FloorRing K]

/-- To nearest, ties to even. -/
def roundHalfEven (x : K) : ℤ :=
  if Int.fract x < 1 / 2 then ⌊x⌋
  else if 1 / 2 < Int.fract x then ⌊x⌋ + 1
  else if Even ⌊x⌋ then ⌊x⌋ else ⌊x⌋ + 1

/-- To nearest, ties away from zero. -/
def roundHalfAway (x : K) : ℤ :=
  if 0 ≤ x then ⌊x + 1 / 2⌋ else -⌊-x + 1 / 2⌋

/-- An integer is nearest to a number when it is at most a half away. -/
def Nearest (x : K) (n : ℤ) : Prop := |x - n| ≤ 1 / 2

/-- **NEAREST**, ties to even. -/
theorem nearest_roundHalfEven (x : K) : Nearest x (roundHalfEven x) := by
  have hfract : x - ⌊x⌋ = Int.fract x := rfl
  have hlow := Int.fract_nonneg x
  have hhigh := Int.fract_lt_one x
  rw [Nearest, abs_le, roundHalfEven]
  by_cases hdown : Int.fract x < 1 / 2
  · rw [if_pos hdown, hfract]
    constructor
    · linarith
    · linarith
  rw [if_neg hdown]
  by_cases hup : 1 / 2 < Int.fract x
  · rw [if_pos hup, Int.cast_add, Int.cast_one, ← sub_sub, hfract]
    constructor
    · linarith
    · linarith
  rw [if_neg hup]
  -- a tie: both neighbours are a half away
  by_cases heven : Even ⌊x⌋
  · rw [if_pos heven, hfract]
    constructor
    · linarith
    · linarith
  · rw [if_neg heven, Int.cast_add, Int.cast_one, ← sub_sub, hfract]
    constructor
    · linarith
    · linarith

/-- **NEAREST**, ties away from zero. -/
theorem nearest_roundHalfAway (x : K) : Nearest x (roundHalfAway x) := by
  rw [Nearest, abs_le, roundHalfAway]
  by_cases hsign : 0 ≤ x
  · have hlow := Int.floor_le (x + 1 / 2)
    have hhigh := Int.lt_floor_add_one (x + 1 / 2)
    rw [if_pos hsign]
    constructor
    · linarith
    · linarith
  · have hlow := Int.floor_le (-x + 1 / 2)
    have hhigh := Int.lt_floor_add_one (-x + 1 / 2)
    rw [if_neg hsign, Int.cast_neg]
    constructor
    · linarith
    · linarith

/-- **UNIQUE**: an integer closer than a half is the only nearest one. -/
theorem Nearest.eq_of_lt {x : K} {m n : ℤ} (hm : Nearest x m) (hn : |x - n| < 1 / 2) :
    m = n := by
  rw [Nearest, abs_le] at hm
  rw [abs_lt] at hn
  have hlow : (n : K) < m + 1 := by linarith [hm.1, hn.2]
  have hhigh : (m : K) < n + 1 := by linarith [hm.2, hn.1]
  have hlow' : n < m + 1 := by exact_mod_cast hlow
  have hhigh' : m < n + 1 := by exact_mod_cast hhigh
  omega

/-- Integers stay as they are. -/
theorem Nearest.intCast {m n : ℤ} (h : Nearest (n : K) m) : m = n :=
  h.eq_of_lt (by rw [sub_self, abs_zero]; exact one_half_pos)

theorem roundHalfEven_intCast (n : ℤ) : roundHalfEven (n : K) = n :=
  (nearest_roundHalfEven (n : K)).intCast

/-- A nearest integer stays on the same side of an integer bound. -/
theorem Nearest.le_of_le {x : K} {m n : ℤ} (h : Nearest x m) (hx : x < n + 1 / 2) :
    m ≤ n := by
  rw [Nearest, abs_le] at h
  have hlt : (m : K) < n + 1 := by linarith [h.1]
  have hlt' : m < n + 1 := by exact_mod_cast hlt
  omega

theorem Nearest.ge_of_ge {x : K} {m n : ℤ} (h : Nearest x m) (hx : (n : K) - 1 / 2 < x) :
    n ≤ m := by
  rw [Nearest, abs_le] at h
  have hlt : (n : K) < m + 1 := by linarith [h.2]
  have hlt' : n < m + 1 := by exact_mod_cast hlt
  omega

omit [IsStrictOrderedRing K] in
/-- At a tie the even neighbour is taken. -/
theorem roundHalfEven_of_tie {x : K} (h : Int.fract x = 1 / 2) :
    roundHalfEven x = if Even ⌊x⌋ then ⌊x⌋ else ⌊x⌋ + 1 := by
  rw [roundHalfEven, h, if_neg (lt_irrefl _), if_neg (lt_irrefl _)]

/-- Away from ties the result is closer than a half. -/
theorem abs_sub_roundHalfEven_lt {x : K} (h : Int.fract x ≠ 1 / 2) :
    |x - roundHalfEven x| < 1 / 2 := by
  have hfract : x - ⌊x⌋ = Int.fract x := rfl
  have hlow := Int.fract_nonneg x
  have hhigh := Int.fract_lt_one x
  rw [abs_lt, roundHalfEven]
  rcases lt_or_gt_of_ne h with hdown | hup
  · rw [if_pos hdown, hfract]
    constructor
    · linarith
    · linarith
  · rw [if_neg (not_lt.mpr hup.le), if_pos hup, Int.cast_add, Int.cast_one, ← sub_sub,
      hfract]
    constructor
    · linarith
    · linarith

/-- Up to a half a number is rounded to 0, which is even. -/
theorem roundHalfEven_eq_zero {x : K} (h : |x| ≤ 1 / 2) : roundHalfEven x = 0 := by
  obtain ⟨hlow, hhigh⟩ := abs_le.mp h
  by_cases htie : Int.fract x = 1 / 2
  · have hx : x = ⌊x⌋ + 1 / 2 := by
      rw [← htie]
      exact (Int.floor_add_fract x).symm
    -- only the halves around 0 are ties that small
    have hge : (-1 : K) ≤ ⌊x⌋ := by linarith
    have hle : (⌊x⌋ : K) ≤ 0 := by linarith
    have hge' : -1 ≤ ⌊x⌋ := by exact_mod_cast hge
    have hle' : ⌊x⌋ ≤ 0 := by exact_mod_cast hle
    rw [roundHalfEven_of_tie htie]
    have hcases : ⌊x⌋ = -1 ∨ ⌊x⌋ = 0 := by omega
    rcases hcases with hfloor | hfloor
    · rw [hfloor]
      decide
    · rw [hfloor]
      decide
  · have hnear := abs_lt.mp (abs_sub_roundHalfEven_lt htie)
    have hge : (-1 : K) < roundHalfEven x := by linarith [hnear.2]
    have hle : (roundHalfEven x : K) < 1 := by linarith [hnear.1]
    have hge' : -1 < roundHalfEven x := by exact_mod_cast hge
    have hle' : roundHalfEven x < 1 := by exact_mod_cast hle
    omega

/-- **SYMMETRY**: rounding to even commutes with negation. -/
theorem roundHalfEven_neg (x : K) : roundHalfEven (-x) = -roundHalfEven x := by
  by_cases htie : Int.fract x = 1 / 2
  · -- the neighbours of `-x` are those of `x`, the other way round
    have hx : x = ⌊x⌋ + 1 / 2 := by
      rw [← htie]
      exact (Int.floor_add_fract x).symm
    have hfloor : ⌊-x⌋ = -⌊x⌋ - 1 := by
      rw [Int.floor_eq_iff, Int.cast_sub, Int.cast_neg, Int.cast_one]
      constructor
      · linarith
      · linarith
    have htie' : Int.fract (-x) = 1 / 2 := by
      rw [Int.fract, hfloor, Int.cast_sub, Int.cast_neg, Int.cast_one]
      linarith
    rw [roundHalfEven_of_tie htie, roundHalfEven_of_tie htie', hfloor]
    by_cases heven : Even ⌊x⌋
    · have hodd : ¬ Even (-⌊x⌋ - 1) := by
        rw [Int.even_sub_one, not_not]
        exact heven.neg
      rw [if_pos heven, if_neg hodd]
      ring
    · have heven' : Even (-⌊x⌋ - 1) := by
        rw [Int.even_sub_one, even_neg]
        exact heven
      rw [if_neg heven, if_pos heven']
      ring
  · refine (nearest_roundHalfEven (-x)).eq_of_lt ?_
    have hdist : -x - ((-roundHalfEven x : ℤ) : K) = -(x - roundHalfEven x) := by
      rw [Int.cast_neg]
      ring
    rw [hdist, abs_neg]
    exact abs_sub_roundHalfEven_lt htie

end CPetRounding
