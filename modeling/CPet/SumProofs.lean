import CPet.IntArrayProofs
import Mathlib.Tactic.Linarith

/-! # `sum1` to `sum4`

    Four loops add up the first `n` elements of an array: one counts rounds and
    moves the array pointer, one counts an index, and two compare a pointer
    with the end.  A pointer is an offset into memory, so the end of a negative
    number of elements lies before the array, and nothing is read.

    Each loop simulates the next, with the cursor of one a function of the
    cursor of the other.  All four come to the same total, and to the same
    addition that leaves the range of `int`, if there is one. -/

namespace CPetSum

open CPetRun CPetIntArray

/-! ## Adding `int`s -/

/-- The value is in the range of `int`. -/
def FitsInt (z : Int) : Prop := -2 ^ 31 ≤ z ∧ z < 2 ^ 31

instance (z : Int) : Decidable (FitsInt z) := inferInstanceAs (Decidable (_ ∧ _))

/-- A sum so far, and whether some addition has left the range of `int`. -/
structure Total where
  sum : Int32
  overflowed : Bool

/-- `int sum = 0`. -/
def Total.zero : Total := ⟨0, false⟩

/-- `sum += x`. -/
def Total.add (t : Total) (x : Int) : Total :=
  ⟨t.sum + Int32.ofInt x, t.overflowed || !decide (FitsInt (t.sum.toInt + x))⟩

/-! ## The routines -/

/-- The locals of `sum1`. -/
structure CountLocals where
  i : Int
  array : Int
  total : Total
  mem : Mem

/-- `for(int i = 0; i < n; i++) sum += *array++`. -/
def sum1Loop (n : Int) : Loop CountLocals where
  guard := fun s => decide (s.i < n)
  body := fun s =>
    let read := load s.array s.mem
    ⟨s.i + 1, s.array + 1, s.total.add read.1, read.2⟩
  rank := fun s => (n - s.i).toNat
  dec := by
    intro s h
    have hlt := of_decide_eq_true h
    show (n - (s.i + 1)).toNat < (n - s.i).toNat
    omega

/-- `sum1(array, n)`: the total and the memory afterwards. -/
def sum1 (array n : Int) (m : Mem) : Total × Mem :=
  let s := (sum1Loop n).run ⟨0, array, Total.zero, m⟩
  (s.total, s.mem)

/-- The locals of the other routines: an index or a pointer, and the sum. -/
structure CursorLocals where
  cursor : Int
  total : Total
  mem : Mem

/-- `for(int i = 0; i < n; i++) sum += array[i]`. -/
def sum2Loop (array n : Int) : Loop CursorLocals where
  guard := fun s => decide (s.cursor < n)
  body := fun s =>
    let read := load (array + s.cursor) s.mem
    ⟨s.cursor + 1, s.total.add read.1, read.2⟩
  rank := fun s => (n - s.cursor).toNat
  dec := by
    intro s h
    have hlt := of_decide_eq_true h
    show (n - (s.cursor + 1)).toNat < (n - s.cursor).toNat
    omega

/-- `sum2(array, n)`. -/
def sum2 (array n : Int) (m : Mem) : Total × Mem :=
  let s := (sum2Loop array n).run ⟨0, Total.zero, m⟩
  (s.total, s.mem)

/-- `while(p < &array[n]) sum += *p++`. -/
def sum3Loop (array n : Int) : Loop CursorLocals where
  guard := fun s => decide (s.cursor < array + n)
  body := fun s =>
    -- `*p++` moves the pointer and reads from where it was
    let p := s.cursor
    let s := { s with cursor := p + 1 }
    let read := load p s.mem
    { s with total := s.total.add read.1, mem := read.2 }
  rank := fun s => (array + n - s.cursor).toNat
  dec := by
    intro s h
    have hlt := of_decide_eq_true h
    show (array + n - (s.cursor + 1)).toNat < (array + n - s.cursor).toNat
    omega

/-- `sum3(array, n)`. -/
def sum3 (array n : Int) (m : Mem) : Total × Mem :=
  let s := (sum3Loop array n).run ⟨array, Total.zero, m⟩
  (s.total, s.mem)

/-- `for(const int *p = array; p < array+n; p++) sum += *p`. -/
def sum4Loop (array n : Int) : Loop CursorLocals where
  guard := fun s => decide (s.cursor < array + n)
  body := fun s =>
    let read := load s.cursor s.mem
    let s := { s with total := s.total.add read.1, mem := read.2 }
    -- the pointer moves at the end of the round
    { s with cursor := s.cursor + 1 }
  rank := fun s => (array + n - s.cursor).toNat
  dec := by
    intro s h
    have hlt := of_decide_eq_true h
    show (array + n - (s.cursor + 1)).toNat < (array + n - s.cursor).toNat
    omega

/-- `sum4(array, n)`. -/
def sum4 (array n : Int) (m : Mem) : Total × Mem :=
  let s := (sum4Loop array n).run ⟨array, Total.zero, m⟩
  (s.total, s.mem)

/-! ## One loop simulates the next -/

/-- `sum1` has counted as far as the index of `sum2`, and moved its pointer there. -/
structure CountMatches (array : Int) (s : CountLocals) (t : CursorLocals) : Prop where
  i : s.i = t.cursor
  array : s.array = array + t.cursor
  total : s.total = t.total
  mem : s.mem = t.mem

/-- A pointer stands at the element of an index. -/
structure PointerMatches (array : Int) (s t : CursorLocals) : Prop where
  cursor : t.cursor = array + s.cursor
  total : s.total = t.total
  mem : s.mem = t.mem

section Routines

variable (array n : Int) (m : Mem)

/-- A pointer that moves along with the index reads what the index does, -/
theorem sum1_eq_sum2 : sum1 array n m = sum2 array n m := by
  have hrun : CountMatches array ((sum1Loop n).run ⟨0, array, Total.zero, m⟩)
      ((sum2Loop array n).run ⟨0, Total.zero, m⟩) := by
    refine Loop.run_simulates (CountMatches array) ?_ ?_ ⟨rfl, (Int.add_zero array).symm, rfl, rfl⟩
    · rintro s t ⟨hi, -, -, -⟩
      show decide (s.i < n) = true ↔ decide (t.cursor < n) = true
      rw [hi]
    · rintro s t ⟨hi, harray, htotal, hmem⟩
      have hload : load s.array s.mem = load (array + t.cursor) t.mem := by rw [harray, hmem]
      refine ⟨congrArg (fun i => i + 1) hi, ?_, ?_, congrArg Prod.snd hload⟩
      · show s.array + 1 = array + (t.cursor + 1)
        rw [harray, Int.add_assoc]
      · show s.total.add (load s.array s.mem).1 = t.total.add (load (array + t.cursor) t.mem).1
        rw [hload, htotal]
  exact Prod.ext hrun.total hrun.mem

/-- and so does a pointer without one. -/
theorem sum2_eq_sum3 : sum2 array n m = sum3 array n m := by
  have hrun : PointerMatches array ((sum2Loop array n).run ⟨0, Total.zero, m⟩)
      ((sum3Loop array n).run ⟨array, Total.zero, m⟩) := by
    refine Loop.run_simulates (PointerMatches array) ?_ ?_ ⟨(Int.add_zero array).symm, rfl, rfl⟩
    · rintro s t ⟨hcursor, -, -⟩
      show decide (s.cursor < n) = true ↔ decide (t.cursor < array + n) = true
      rw [hcursor, decide_eq_true_iff, decide_eq_true_iff]
      exact (Int.add_lt_add_iff_left array).symm
    · rintro s t ⟨hcursor, htotal, hmem⟩
      have hload : load (array + s.cursor) s.mem = load t.cursor t.mem := by rw [hcursor, hmem]
      refine ⟨?_, ?_, congrArg Prod.snd hload⟩
      · show t.cursor + 1 = array + (s.cursor + 1)
        rw [hcursor, Int.add_assoc]
      · show s.total.add (load (array + s.cursor) s.mem).1 = t.total.add (load t.cursor t.mem).1
        rw [hload, htotal]
  exact Prod.ext hrun.total hrun.mem

/-- Moving the pointer before or after the addition makes no difference. -/
theorem sum3_eq_sum4 : sum3 array n m = sum4 array n m := by
  have hrun : (sum3Loop array n).run ⟨array, Total.zero, m⟩
      = (sum4Loop array n).run ⟨array, Total.zero, m⟩ := by
    refine Loop.run_simulates (fun s t => s = t) ?_ ?_ rfl
    · rintro s t rfl
      exact Iff.rfl
    · rintro s t rfl
      rfl
  exact congrArg (fun s : CursorLocals => (s.total, s.mem)) hrun

end Routines

/-! ## What they compute -/

/-- The exact sum of the first `k` elements. -/
def prefixSum (ar : Int → Int) (array : Int) : Nat → Int
  | 0 => 0
  | k + 1 => prefixSum ar array k + ar (array + k)

/-- The first `k` elements, added up as the source does. -/
def totalOf (ar : Int → Int) (array : Int) : Nat → Total
  | 0 => Total.zero
  | k + 1 => (totalOf ar array k).add (ar (array + k))

/-- The offsets of the first `k` elements, latest first. -/
def offsets (array : Int) (k : Nat) : List Int :=
  (List.range k).reverse.map (fun d : Nat => array + d)

theorem offsets_succ (array : Int) (k : Nat) :
    offsets array (k + 1) = (array + k) :: offsets array k := by
  rw [offsets, List.range_succ, List.reverse_append]
  rfl

/-- The state of `sum2` when `k` elements have been added. -/
def added (array : Int) (m : Mem) (k : Nat) : CursorLocals :=
  ⟨k, totalOf m.ar array k, { m with touched := offsets array k ++ m.touched }⟩

/-- **STEP**: a round adds the next element. -/
theorem sum2_body (array n : Int) (m : Mem) (k : Nat) :
    (sum2Loop array n).body (added array m k) = added array m (k + 1) := by
  rw [added, added, offsets_succ]
  rfl

/-- **RUN**: in the end the first `n` elements have been added. -/
theorem sum2_run (array n : Int) (m : Mem) :
    (sum2Loop array n).run ⟨0, Total.zero, m⟩ = added array m n.toNat := by
  have hinv : ∃ k : Nat, k ≤ n.toNat
      ∧ (sum2Loop array n).run ⟨0, Total.zero, m⟩ = added array m k := by
    refine Loop.run_invariant (I := fun s => ∃ k : Nat, k ≤ n.toNat ∧ s = added array m k) ?_ _
      ⟨0, Nat.zero_le _, rfl⟩
    rintro s ⟨k, hk, rfl⟩ hguard
    have hlt : (k : Int) < n := of_decide_eq_true hguard
    exact ⟨k + 1, by omega, sum2_body array n m k⟩
  obtain ⟨k, hk, hrun⟩ := hinv
  have hexit := Loop.run_exit (sum2Loop array n) ⟨0, Total.zero, m⟩
  rw [hrun] at hexit ⊢
  have hge : ¬ (k : Int) < n := fun hlt => hexit (decide_eq_true hlt)
  rw [show k = n.toNat by omega]

/-- A routine adds up the elements, and loads each of them once. -/
theorem sum2_eq (array n : Int) (m : Mem) :
    sum2 array n m = (totalOf m.ar array n.toNat,
      { m with touched := offsets array n.toNat ++ m.touched }) := by
  rw [sum2, sum2_run]
  rfl

section Value

variable (ar : Int → Int) (array : Int)

/-- **WRAPPING**: the sum is right modulo `2 ^ 32`. -/
theorem toInt_totalOf (k : Nat) :
    (totalOf ar array k).sum.toInt = (prefixSum ar array k).bmod (2 ^ 32) := by
  induction k with
  | zero => rfl
  | succ k ih =>
      rw [totalOf, prefixSum, Total.add, Int32.toInt_add, Int32.toInt_ofInt, ih,
        Int.bmod_add_bmod]
      exact Int.add_bmod_bmod

/-- A value in the range of `int` is its own representative. -/
theorem FitsInt.bmod_eq {z : Int} (h : FitsInt z) : z.bmod (2 ^ 32) = z := by
  obtain ⟨hlow, hhigh⟩ := h
  refine Int.bmod_eq_of_le_mul_two ?_ ?_
  · omega
  · omega

/-- **OVERFLOW**: all additions stay in the range of `int` exactly when all prefix
    sums do. -/
theorem overflowed_totalOf_iff (k : Nat) :
    (totalOf ar array k).overflowed = false
      ↔ ∀ j, j ≤ k → FitsInt (prefixSum ar array j) := by
  induction k with
  | zero =>
      refine iff_of_true rfl ?_
      intro j hj
      rw [Nat.le_zero.mp hj]
      exact (by decide : FitsInt 0)
  | succ k ih =>
      rw [totalOf, Total.add, Bool.or_eq_false_iff, ih, Bool.not_eq_false', decide_eq_true_iff]
      constructor
      · rintro ⟨hold, hnew⟩ j hj
        -- without an overflow so far, the sum is exact
        rw [toInt_totalOf, (hold k (Nat.le_refl k)).bmod_eq] at hnew
        rcases Nat.le_succ_iff.mp hj with hle | heq
        · exact hold j hle
        · rw [heq]
          exact hnew
      · intro h
        refine ⟨fun j hj => h j (Nat.le_succ_of_le hj), ?_⟩
        rw [toInt_totalOf, (h k (Nat.le_succ k)).bmod_eq]
        exact h (k + 1) (Nat.le_refl _)

end Value

/-- **THE FOUR ROUTINES AGREE**, on the total and on what they read: the sum of the
    first `n` elements modulo `2 ^ 32`, exact when every prefix sum is an `int`, from
    one read of each of them. -/
theorem sums_agree (array n : Int) (m : Mem) :
    (sum1 array n m = sum2 array n m ∧ sum2 array n m = sum3 array n m
        ∧ sum3 array n m = sum4 array n m)
      ∧ (sum1 array n m).1.sum.toInt = (prefixSum m.ar array n.toNat).bmod (2 ^ 32)
      ∧ ((∀ j, j ≤ n.toNat → FitsInt (prefixSum m.ar array j)) →
          (sum1 array n m).1.sum.toInt = prefixSum m.ar array n.toNat
            ∧ (sum1 array n m).1.overflowed = false)
      ∧ (sum1 array n m).2 = { m with touched := offsets array n.toNat ++ m.touched } := by
  have hsum := (sum1_eq_sum2 array n m).trans (sum2_eq array n m)
  refine ⟨⟨sum1_eq_sum2 array n m, sum2_eq_sum3 array n m, sum3_eq_sum4 array n m⟩, ?_, ?_, ?_⟩
  · rw [hsum]
    exact toInt_totalOf m.ar array n.toNat
  · intro hfits
    rw [hsum]
    refine ⟨?_, (overflowed_totalOf_iff m.ar array n.toNat).mpr hfits⟩
    show (totalOf m.ar array n.toNat).sum.toInt = _
    rw [toInt_totalOf, (hfits _ (Nat.le_refl _)).bmod_eq]
  · rw [hsum]

/-- The array 1, 2, 3, ... -/
def counting : Mem := ⟨fun k => k + 1, [], ""⟩

theorem sums_agree_three :
    (sum1 0 3 counting).1.sum.toInt = prefixSum counting.ar 0 3
      ∧ (sum1 0 3 counting).1.overflowed = false :=
  (sums_agree 0 3 counting).2.2.1 (by decide)

example : totalOf (fun _ => 2147483647) 0 2 = ⟨-2, true⟩ := rfl

end CPetSum
