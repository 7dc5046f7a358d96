import CPet.IntArrayProofs
import Mathlib.Algebra.Order.Group.Unbundled.Int
import Mathlib.Tactic.Linarith
import Mathlib.Tactic.Ring

/-! # `identity`

    One pointer walks over all `n * m` cells of a row-major matrix, and a
    counter decides which of them become one.  The counter is compared with
    `m` before it is incremented, so it runs through `m + 1` values: the ones
    are `m + 1` cells apart, which is one cell further right in every row.

    After `m` rows the diagonal is complete, and the row behind it is all
    zeros.  With one row more, a one stands in the first column again. -/

namespace CPetIdentity

open CPetIntArray CPetRun

/-- The loop body at the pointer `p`, with the counter `i`. -/
def body (m : Nat) (p : Int) (i : Nat) (mem : Mem) : Nat × Mem :=
  let mem := store p (if i = 0 then 1 else 0) mem
  -- `i++ == m` compares the value before the increment
  if i = m then (0, mem) else (i + 1, mem)

/-- `identity(ident, n, m)`; the buffer has `n * m` cells, so their number does
    not wrap. -/
def identity (n m : Nat) (mem : Mem) : Mem :=
  (forRange (n * m) (fun p st => body m p st.1 st.2) (0, mem)).2

/-- One on the diagonal of `n` rows of `m` cells, and zero off it. -/
def IsIdentity (n m : Nat) (ar : Int → Int) : Prop :=
  ∀ r c, r < n → c < m → ar (r * m + c : Nat) = if r = c then 1 else 0

/-! ## The walk -/

/-- The counter runs through `m + 1` values. -/
theorem succ_mod (k m : Nat) :
    (k + 1) % (m + 1) = if k % (m + 1) = m then 0 else k % (m + 1) + 1 := by
  have hlt : k % (m + 1) < m + 1 := Nat.mod_lt k (Nat.succ_pos m)
  rw [← Nat.mod_add_mod]
  by_cases h : k % (m + 1) = m
  · rw [if_pos h, h, Nat.mod_self]
  · rw [if_neg h, Nat.mod_eq_of_lt (by omega)]

/-- What is known when `k` cells have been written. -/
structure Walked (m : Nat) (mem : Mem) (k : Nat) (st : Nat × Mem) : Prop where
  counter : st.1 = k % (m + 1)
  written : ∀ j : Nat, j < k → st.2.ar j = if m + 1 ∣ j then 1 else 0
  outside : ∀ j : Int, (j < 0 ∨ k ≤ j) → st.2.ar j = mem.ar j
  touched : ∀ j ∈ st.2.touched, (0 ≤ j ∧ j < k) ∨ j ∈ mem.touched

theorem walked_start (m : Nat) (mem : Mem) : Walked m mem 0 (0, mem) where
  counter := (Nat.zero_mod _).symm
  written := fun j hj => absurd hj (Nat.not_lt_zero j)
  outside := fun _ _ => rfl
  touched := fun _ hj => Or.inr hj

theorem body_mem (m : Nat) (p : Int) (i : Nat) (mem : Mem) :
    (body m p i mem).2 = store p (if i = 0 then 1 else 0) mem := by
  by_cases h : i = m
  · rw [body, if_pos h]
  · rw [body, if_neg h]

/-- **STEP**: the cell at `p` gets a one when the counter stands at zero. -/
theorem walked_body {m : Nat} {mem : Mem} {k : Nat} {st : Nat × Mem}
    (h : Walked m mem k st) : Walked m mem (k + 1) (body m k st.1 st.2) where
  counter := by
    rw [succ_mod, ← h.counter, body]
    by_cases hi : st.1 = m
    · rw [if_pos hi, if_pos hi]
    · rw [if_neg hi, if_neg hi]
  written := by
    intro j hj
    rw [body_mem]
    show Function.update st.2.ar k _ (j : Int) = _
    rcases Nat.lt_succ_iff_lt_or_eq.mp hj with hlt | heq
    · rw [Function.update_of_ne (by omega)]
      exact h.written j hlt
    · rw [heq, Function.update_self, h.counter]
      exact if_congr Nat.dvd_iff_mod_eq_zero.symm rfl rfl
  outside := by
    intro j hj
    rw [body_mem]
    show Function.update st.2.ar k _ j = _
    rw [Function.update_of_ne (by omega)]
    exact h.outside j (by omega)
  touched := by
    intro j hj
    rw [body_mem] at hj
    rcases List.mem_cons.mp hj with heq | hold
    · exact Or.inl (by omega)
    · exact (h.touched j hold).imp (fun hin => by omega) id

/-- **RUN**: the ones are the cells at multiples of `m + 1`. -/
theorem walked_identity (n m : Nat) (mem : Mem) :
    Walked m mem (n * m)
      (forRange (n * m) (fun p st => body m p st.1 st.2) (0, mem)) :=
  forRange_invariant (n * m) (walked_start m mem) (fun _ _ _ h => walked_body h)

/-- **FRAME**: only the cells of the buffer are stored to. -/
theorem identity_frame (n m : Nat) (mem : Mem) :
    (∀ j : Int, (j < 0 ∨ (n * m : Nat) ≤ j) → (identity n m mem).ar j = mem.ar j)
      ∧ ∀ j ∈ (identity n m mem).touched, (0 ≤ j ∧ j < (n * m : Nat)) ∨ j ∈ mem.touched :=
  ⟨(walked_identity n m mem).outside, (walked_identity n m mem).touched⟩

/-! ## Multiples and the diagonal -/

/-- Cell `c` of row `r` is `c - r` cells past a multiple of `m + 1`. -/
theorem dvd_index_iff (m r c : Nat) :
    m + 1 ∣ r * m + c ↔ ((m + 1 : Nat) : Int) ∣ (c : Int) - r := by
  have hsplit : ((r * m + c : Nat) : Int) = ((m + 1 : Nat) : Int) * r + ((c : Int) - r) := by
    push_cast
    ring
  rw [← Int.natCast_dvd_natCast, hsplit]
  exact (Int.dvd_add_right (Int.dvd_mul_right _ _))

/-- **UP TO `m + 1` ROWS** the multiples of `m + 1` are the diagonal. -/
theorem dvd_index_iff_eq {n m r c : Nat} (hn : n ≤ m + 1) (hr : r < n) (hc : c < m) :
    m + 1 ∣ r * m + c ↔ r = c := by
  rw [dvd_index_iff]
  constructor
  · intro hdvd
    -- two columns of one row, or of the next, are closer than `m + 1`
    have habs : |(c : Int) - r| < ((m + 1 : Nat) : Int) := by
      rw [abs_lt]
      constructor
      · omega
      · omega
    have hzero := Int.eq_zero_of_abs_lt_dvd hdvd habs
    omega
  · rintro rfl
    rw [sub_self]
    exact dvd_zero _

theorem identity_cell {n m r c : Nat} (hr : r < n) (hc : c < m) (mem : Mem) :
    (identity n m mem).ar (r * m + c : Nat) = if m + 1 ∣ r * m + c then 1 else 0 := by
  refine (walked_identity n m mem).written (r * m + c) ?_
  have hrow : (r + 1) * m ≤ n * m := Nat.mul_le_mul_right m hr
  rw [Nat.succ_mul] at hrow
  omega

/-- **SUFFICIENT**. -/
theorem isIdentity_of_le {n m : Nat} (h : n ≤ m + 1) (mem : Mem) :
    IsIdentity n m (identity n m mem).ar := by
  intro r c hr hc
  rw [identity_cell hr hc]
  exact if_congr (dvd_index_iff_eq h hr hc) rfl rfl

/-- **NECESSARY**: the first cell of row `m + 1` is a one off the diagonal. -/
theorem le_of_isIdentity {n m : Nat} (hm : 0 < m) {mem : Mem}
    (h : IsIdentity n m (identity n m mem).ar) : n ≤ m + 1 := by
  by_contra hlt
  have hr : m + 1 < n := not_le.mp hlt
  have hcell := h (m + 1) 0 hr hm
  have hdvd : m + 1 ∣ (m + 1) * m + 0 := Nat.dvd_mul_right (m + 1) m
  rw [identity_cell hr hm, if_pos hdvd, if_neg (Nat.succ_ne_zero m)] at hcell
  exact absurd hcell (by decide)

/-- **EVERY SHAPE**: whatever the buffer held, the identity is built if and only
    if the rows have no cells, or there is at most one more row than columns. -/
theorem identity_correct_iff (n m : Nat) (mem : Mem) :
    IsIdentity n m (identity n m mem).ar ↔ m = 0 ∨ n ≤ m + 1 := by
  constructor
  · intro h
    rcases Nat.eq_zero_or_pos m with hzero | hpos
    · exact Or.inl hzero
    · exact Or.inr (le_of_isIdentity hpos h)
  · rintro (rfl | hle)
    · exact fun r c _ hc => absurd hc (Nat.not_lt_zero c)
    · exact isIdentity_of_le hle mem

/-- Three rows of one cell: the last one is a one too. -/
theorem identity_fails_three_by_one :
    ¬ ∀ (n m : Nat) (mem : Mem), m < 2147483647 →
        IsIdentity n m (identity n m mem).ar := by
  intro h
  have hcell := h 3 1 ⟨fun _ => 0, [], ""⟩ (by decide) 2 0 (by decide) (by decide)
  exact absurd hcell (by decide)

/-- **EXACT SHAPES**: for at least one column, the result is right if and only if
    there is at most one more row than columns. -/
theorem identity_shape_iff {n m : Nat} (hm : 1 ≤ m) (mem : Mem) :
    IsIdentity n m (identity n m mem).ar ↔ n ≤ m + 1 :=
  ⟨le_of_isIdentity hm, fun hle => isIdentity_of_le hle mem⟩

theorem identity_shape_iff_three_by_two :
    IsIdentity 3 2 (identity 3 2 ⟨fun _ => 7, [], ""⟩).ar ↔ 3 ≤ 2 + 1 :=
  identity_shape_iff (by decide) _

end CPetIdentity
