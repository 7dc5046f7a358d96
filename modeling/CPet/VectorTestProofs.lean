import CPet.TestRunProofs
import CPet.VectorErrorProofs

/-! # What the vector tests say

    A program of vector tests compares what `dot` and `norm2` compute with expected
    values: `dot` without a tolerance, `norm2` with one.  Its exit status says
    something of the exact results.

    Without a tolerance a check of `dot` says that the expected value is the exact
    product, as long as nothing is rounded.  A tolerance leaves a margin for the
    error of the computation: within it a check of `norm2` passes whatever the
    roundings do, and what passes is not beyond it on the other side. -/

namespace CPetVectorTest

open CPetDouble CPetVectorError CPetAssertsDouble CPetTestRun
open CPetIeee (Ieee unit tiny nearest)
open CPetVector (Vector dot norm2)

/-! ## The program -/

/-- A vector of finite doubles. -/
structure Sample where
  vector : Vector Ieee
  x : Nat → Double
  finite : HasDoubles vector vector.dims.toNat x

def Sample.n (v : Sample) : Nat := v.vector.dims.toNat

/-- A step in the body of a vector test. -/
inductive VectorCheck where
  | dot (expected : Double) (a b : Sample)
  | norm2 (expected : Double) (a : Sample) (absError : Double)
  | info (str : List UInt8)

/-- The step with its result computed: `assertEqualsDouble(expected, dot(a, b), 0)`,
    `assertEqualsDouble(expected, norm2(a), absError)` or `logInfo(str)`. -/
def VectorCheck.evaluate : VectorCheck → Option Check
  | .dot expected a b =>
      (CPetVector.dot a.vector b.vector).map fun w => .equalsDouble (.finite expected) w 0
  | .norm2 expected a absError =>
      (CPetVector.norm2 Ieee.sqrt a.vector).map fun w =>
        .equalsDouble (.finite expected) w (.finite absError)
  | .info str => some (.info str)

/-- A test function. -/
structure VectorTest where
  name : List UInt8
  body : List VectorCheck

def VectorTest.evaluate (t : VectorTest) : Option Test :=
  (t.body.mapM VectorCheck.evaluate).map (Test.mk t.name)

/-- The `main` of a program of vector tests; no value when a check, reached or not, reads
    a component that is missing. -/
def vectorMain (title : List UInt8) (ts : List VectorTest) : Option CPetAsserts.AssertState :=
  (ts.mapM VectorTest.evaluate).map (testMain title)

/-! ## What a check is about -/

/-- The computation stays in range; that of `dot` is not rounded. -/
def VectorCheck.InRange : VectorCheck → Prop
  | .dot _ a b =>
      a.n ≤ b.n ∧ ∃ (g : ℤ) (z : Nat → ℤ), (-1074 ≤ g ∧ g ≤ 971)
        ∧ (∀ i, i < a.n → (a.x i).value * (b.x i).value = z i * 2 ^ g)
        ∧ ∑ i ∈ Finset.range a.n, |z i| < 2 ^ 53
  | .norm2 _ a _ => CPetVectorError.InRange a.x a.x a.n
  | .info _ => True

/-- The exact result meets the expected value, with a margin for the error. -/
def VectorCheck.Meets : VectorCheck → Prop
  | .dot expected a b => expected.value = exact a.x b.x a.n
  | .norm2 expected a absError =>
      |(expected.value : ℝ) - Real.sqrt (exact a.x a.x a.n)| + normError a.x a.n
        ≤ absError.value
  | .info _ => True

/-- The exact result is not far from the expected value. -/
def VectorCheck.Near : VectorCheck → Prop
  | .dot expected a b => expected.value = exact a.x b.x a.n
  | .norm2 expected a absError =>
      (1 - unit) * (|(expected.value : ℝ) - Real.sqrt (exact a.x a.x a.n)| - normError a.x a.n)
        ≤ absError.value
  | .info _ => True

/-! ## One comparison -/

/-- A comparison passes when the call of `assertEqualsDouble` returns. -/
theorem passes_equalsDouble (expected actual absError : Ieee) :
    (Check.equalsDouble expected actual absError).passes = true
      ↔ Passes expected actual absError := by
  rw [passes_iff_not_rejects, Check.passes, Bool.not_eq_true']

/-- Values that pass are at most a relative error further apart than the tolerance. -/
theorem dist_le_of_passes {e r t : Double} (h : Passes (.finite e) (.finite r) (.finite t)) :
    (1 - unit) * |e.value - r.value| ≤ t.value := by
  have hround := (passes_iff_nearest e r t).mp h
  have herr := CPetIeee.abs_nearest_add_sub_le e (CPetIeee.negDouble r)
  rw [CPetIeee.value_negDouble, ← sub_eq_add_neg] at herr
  have hbelow := abs_sub_abs_le_abs_sub (e.value - r.value) (nearest (e.value - r.value))
  rw [abs_sub_comm (e.value - r.value) (nearest _), CPetIeee.abs_nearest] at hbelow
  linarith

/-- **NO FALSE ALARM** within the margin. -/
theorem passes_of_near {e r t : Double} {exact err : ℝ} (h : |(r.value : ℝ) - exact| ≤ err)
    (hmeets : |(e.value : ℝ) - exact| + err ≤ t.value) :
    Passes (.finite e) (.finite r) (.finite t) := by
  have hdist : |(e.value : ℝ) - r.value| ≤ t.value := by
    have htri := abs_sub_le (e.value : ℝ) exact r.value
    rw [abs_sub_comm exact] at htri
    linarith
  rw [passes_iff_nearest]
  exact CPetIeee.nearest_le_of_le (abs_nonneg _) (by exact_mod_cast hdist)

/-- **NO FALSE PASS** beyond it. -/
theorem near_of_passes {e r t : Double} {exact err : ℝ} (h : |(r.value : ℝ) - exact| ≤ err)
    (hpasses : Passes (.finite e) (.finite r) (.finite t)) :
    (1 - unit) * (|(e.value : ℝ) - exact| - err) ≤ t.value := by
  have hdist : (1 - (unit : ℝ)) * |(e.value : ℝ) - r.value| ≤ t.value := by
    exact_mod_cast dist_le_of_passes hpasses
  have hunit : (0 : ℝ) ≤ 1 - unit := by
    have hlt : (unit : ℝ) < 1 := by exact_mod_cast CPetIeee.unit_lt_one
    linarith
  refine le_trans (mul_le_mul_of_nonneg_left ?_ hunit) hdist
  have htri := abs_sub_le (e.value : ℝ) r.value exact
  linarith

/-! ## One check, and all of them -/

/-- A check that is in range can be evaluated; it passes if the exact result meets the
    expected value, and only if it is not far from it. -/
theorem judged_check {c : VectorCheck} (h : c.InRange) :
    ∃ k, c.evaluate = some k ∧ (c.Meets → k.passes = true) ∧ (k.passes = true → c.Near) := by
  cases c with
  | dot expected a b =>
      obtain ⟨hn, g, z, hg, hz, hsmall⟩ := h
      have hb : HasDoubles b.vector a.n b.x :=
        fun i hi => b.finite i (Nat.lt_of_lt_of_le hi hn)
      obtain ⟨r, hrun, hr⟩ := exact_rounds a.finite hb hg hz hsmall _ (le_refl _)
      have hexact : r.value = exact a.x b.x a.n := hr.trans (exact_eq_sum hz).symm
      have hpasses : Passes (.finite expected) (.finite r) 0
          ↔ expected.value = exact a.x b.x a.n := by
        rw [← hexact]
        exact passes_zero_iff expected r CPetIeee.zeroDouble CPetIeee.value_zeroDouble
      refine ⟨.equalsDouble (.finite expected) (.finite r) 0, ?_, ?_, ?_⟩
      · rw [VectorCheck.evaluate, CPetVector.dot]
        exact congrArg _ hrun
      · intro hmeets
        exact (passes_equalsDouble _ _ _).mpr (hpasses.mpr hmeets)
      · intro hk
        exact hpasses.mp ((passes_equalsDouble _ _ _).mp hk)
  | norm2 expected a absError =>
      obtain ⟨s, hs, herr⟩ := norm_of_rounds a.finite h
      refine ⟨.equalsDouble (.finite expected) (.finite s) (.finite absError), ?_, ?_, ?_⟩
      · rw [VectorCheck.evaluate, CPetVector.norm2]
        exact congrArg _ hs
      · intro hmeets
        exact (passes_equalsDouble _ _ _).mpr (passes_of_near herr hmeets)
      · intro hk
        exact near_of_passes herr ((passes_equalsDouble _ _ _).mp hk)
  | info str => exact ⟨.info str, rfl, fun _ => rfl, fun _ => trivial⟩

/-- A verdict on every element is one on the list, by induction. -/
theorem judged_mapM {α β : Type} {f : α → Option β} {meets near : α → Prop} {passes : β → Bool}
    {l : List α} (h : ∀ a ∈ l, ∃ b, f a = some b ∧ (meets a → passes b = true)
      ∧ (passes b = true → near a)) :
    ∃ bs, l.mapM f = some bs ∧ ((∀ a ∈ l, meets a) → bs.all passes = true)
      ∧ (bs.all passes = true → ∀ a ∈ l, near a) := by
  induction l with
  | nil => exact ⟨[], rfl, fun _ => rfl, fun _ a ha => absurd ha List.not_mem_nil⟩
  | cons a l ih =>
      obtain ⟨b, hb, hmeets, hnear⟩ := h a List.mem_cons_self
      obtain ⟨bs, hbs, hall, hallnear⟩ := ih (fun a ha => h a (List.mem_cons_of_mem _ ha))
      refine ⟨b :: bs, ?_, ?_, ?_⟩
      · simp [List.mapM_cons, hb, hbs]
      · intro hl
        rw [List.all_cons, hmeets (hl a List.mem_cons_self),
          hall (fun a ha => hl a (List.mem_cons_of_mem _ ha))]
        rfl
      · intro hpasses
        rw [List.all_cons, Bool.and_eq_true] at hpasses
        exact List.forall_mem_cons.mpr ⟨hnear hpasses.1, hallnear hpasses.2⟩

/-- **WHAT THE EXIT STATUS SAYS** of a program of vector tests in range: it is 0 when
    every exact result meets its expected value with the margin, whatever the
    roundings do; and when it is 0, no exact result is far from its expected value. -/
theorem vectorMain_judges (title : List UInt8) (ts : List VectorTest)
    (h : ∀ t ∈ ts, ∀ c ∈ t.body, c.InRange) :
    ∃ s, vectorMain title ts = some s
      ∧ ((∀ t ∈ ts, ∀ c ∈ t.body, c.Meets) → exitStatus s = 0)
      ∧ (exitStatus s = 0 → ∀ t ∈ ts, ∀ c ∈ t.body, c.Near) := by
  have htest : ∀ t ∈ ts, ∃ k : Test, t.evaluate = some k
      ∧ ((∀ c ∈ t.body, c.Meets) → k.body.all Check.passes = true)
      ∧ (k.body.all Check.passes = true → ∀ c ∈ t.body, c.Near) := by
    intro t ht
    obtain ⟨ks, hks, hmeets, hnear⟩ := judged_mapM (fun c hc => judged_check (h t ht c hc))
    exact ⟨⟨t.name, ks⟩, by rw [VectorTest.evaluate, hks, Option.map_some], hmeets, hnear⟩
  obtain ⟨ks, hks, hmeets, hnear⟩ := judged_mapM htest
  have hstatus : exitStatus (testMain title ks) = 0
      ↔ ks.all (fun t => t.body.all Check.passes) = true := by
    rw [exitStatus_testMain, all_steps]
    cases ks.all (fun t => t.body.all Check.passes) with
    | true => exact iff_of_true rfl rfl
    | false => exact iff_of_false (by decide) Bool.noConfusion
  refine ⟨testMain title ks, by rw [vectorMain, hks, Option.map_some], ?_, ?_⟩
  · intro hall
    exact hstatus.mpr (hmeets hall)
  · intro hzero
    exact hnear (hstatus.mp hzero)

/-- The vector 1, 2, 3 with its doubles. -/
def sampleOneTwoThree : Sample := ⟨oneTwoThree, countThree, hasDoubles_oneTwoThree⟩

/-- The double 2. -/
def two (_ : Nat) : Double := countThree 1

theorem hasDoubles_two : HasDoubles ⟨1, [.finite (two 0)], rfl⟩ 1 two := by
  intro i hi
  obtain rfl := Nat.lt_one_iff.mp hi
  rfl

/-- The vector with 2 as its only component. -/
def sampleTwo : Sample := ⟨⟨1, [.finite (two 0)], rfl⟩, two, hasDoubles_two⟩

theorem exact_two : exact two two 1 = 4 := by
  rw [exact, Finset.sum_range_one, two, value_countThree]
  norm_num

theorem inRange_two : CPetVectorError.InRange two two 1 := by
  refine inRange_of_total_le (by decide) ?_
  rw [total, Finset.sum_range_one, two, value_countThree]
  norm_num

theorem fourteen_lt : |(14 : ℤ)| < 2 ^ 53 := by decide

def fourteen : Double := onGrid 0 14 zero_grid fourteen_lt

/-- A billionth, or rather a power of two next to it. -/
def billionth : Double := ⟨1, -30, by decide, by decide, by decide⟩

/-- The first checks with these vectors in `test_dot` and `test_norm`. -/
def vectorTests : List VectorTest :=
  [⟨[], [.dot fourteen sampleOneTwoThree sampleOneTwoThree]⟩,
    ⟨[], [.info [], .norm2 (countThree 1) sampleTwo billionth]⟩]

/-- Both checks are in range: the products are whole numbers, -/
theorem inRange_vectorTests : ∀ t ∈ vectorTests, ∀ c ∈ t.body, c.InRange := by
  refine List.forall_mem_cons.mpr ⟨List.forall_mem_singleton.mpr ?_,
    List.forall_mem_singleton.mpr (List.forall_mem_cons.mpr ⟨trivial,
      List.forall_mem_singleton.mpr inRange_two⟩)⟩
  refine ⟨le_refl _, 0, fun i => (min (i + 1) 3 : ℤ) * (min (i + 1) 3 : ℤ), by norm_num, ?_, ?_⟩
  · intro i _
    show (countThree i).value * (countThree i).value = _
    rw [value_countThree]
    push_cast
    ring
  · decide

theorem sqrt_exact_two : Real.sqrt (exact two two 1) = 2 := by
  rw [exact_two, Rat.cast_ofNat, show (4 : ℝ) = 2 ^ 2 by norm_num]
  exact Real.sqrt_sq zero_le_two

/-- The norm of 2 is computed with far less than a billionth lost. -/
theorem normError_two : normError two 1 ≤ billionth.value := by
  have hunit : ((unit : ℚ) : ℝ) = 1 / 2 ^ 53 := by
    rw [unit]
    norm_num
  have htiny : ((tiny : ℚ) : ℝ) ≤ 1 / 2 ^ 100 := by
    have hle : tiny ≤ 2 ^ (-100 : ℤ) := zpow_le_zpow_right₀ one_le_two (by norm_num)
    refine (Rat.cast_le.mpr hle).trans_eq ?_
    norm_num
  have hbillionth : ((billionth.value : ℚ) : ℝ) = 1 / 2 ^ 30 := by
    rw [Double.value, billionth]
    norm_num
  -- the squares lose next to nothing
  have hlost : Real.sqrt ((1 : Nat) * (1 + unit) ^ 1 * tiny) ≤ 1 / 2 ^ 40 := by
    refine Real.sqrt_le_iff.mpr ⟨by norm_num, ?_⟩
    rw [hunit, Nat.cast_one, one_mul, pow_one]
    linarith
  rw [normError, sqrt_exact_two, hbillionth, hunit]
  rw [hunit] at hlost
  linarith

/-- and both results meet what is expected. -/
theorem meets_vectorTests : ∀ t ∈ vectorTests, ∀ c ∈ t.body, c.Meets := by
  refine List.forall_mem_cons.mpr ⟨List.forall_mem_singleton.mpr ?_,
    List.forall_mem_singleton.mpr (List.forall_mem_cons.mpr ⟨trivial,
      List.forall_mem_singleton.mpr ?_⟩)⟩
  · show fourteen.value = exact countThree countThree 3
    rw [exact, Finset.sum_range_succ, Finset.sum_range_succ, Finset.sum_range_one,
      value_countThree, value_countThree, value_countThree, fourteen, value_onGrid_zero]
    norm_num
  · show |((countThree 1).value : ℝ) - Real.sqrt (exact two two 1)| + normError two 1
      ≤ billionth.value
    have htwo : (((countThree 1).value : ℚ) : ℝ) = 2 := by
      rw [value_countThree]
      norm_num
    rw [sqrt_exact_two, htwo, sub_self, abs_zero, zero_add]
    exact normError_two

/-- They pass, and so say that the product is 14 and that the norm is about 2. -/
theorem vectorMain_judges_vectorTests :
    ∃ s, vectorMain [] vectorTests = some s ∧ exitStatus s = 0
      ∧ ∀ t ∈ vectorTests, ∀ c ∈ t.body, c.Near := by
  obtain ⟨s, hrun, hmeets, hnear⟩ := vectorMain_judges [] vectorTests inRange_vectorTests
  exact ⟨s, hrun, hmeets meets_vectorTests, hnear (hmeets meets_vectorTests)⟩

end CPetVectorTest
