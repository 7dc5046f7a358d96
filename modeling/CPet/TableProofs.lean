import Mathlib.Tactic.Common

/-! # Tables, their updates, and row-major positions

    A table is a function of a row and a column.  Its updates set one cell or
    fill all cells; after a sequence of updates every cell holds what the last
    update covering it wrote, or what it held before.

    The second half is the arithmetic of storing a table row by row: the
    position `r * cols + c` is a bijection between the cells and the numbers
    below `rows * cols`. -/

namespace CPetTable

variable {ι α : Type}

/-- A value for every row and column. -/
abbrev Table (ι α : Type) := ι → ι → α

/-- An update of a table. -/
inductive Update (ι α : Type) where
  | set (row col : ι) (value : α)
  | fill (value : α)

section Updates

variable [DecidableEq ι]

/-- The value an update writes to a cell, if it covers the cell. -/
def Update.writes (r c : ι) : Update ι α → Option α
  | .set row col value => if row = r ∧ col = c then some value else none
  | .fill value => some value

/-- The table after an update. -/
def Update.apply (t : Table ι α) (u : Update ι α) : Table ι α :=
  fun r c => (u.writes r c).getD (t r c)

/-- The value of the last update of a sequence that covers a cell. -/
def lastWrite (r c : ι) : List (Update ι α) → Option α
  | [] => none
  | u :: us => (lastWrite r c us).or (u.writes r c)

@[simp] theorem apply_fill (t : Table ι α) (v : α) (r c : ι) :
    Update.apply t (.fill v) r c = v := rfl

theorem apply_set (t : Table ι α) (row col : ι) (v : α) (r c : ι) :
    Update.apply t (.set row col v) r c
      = if row = r ∧ col = c then v else t r c := by
  by_cases h : row = r ∧ col = c
  · simp [Update.apply, Update.writes, h]
  · simp [Update.apply, Update.writes, h]

/-- **LAST WRITE WINS**: a cell after a sequence of updates. -/
theorem foldl_apply (us : List (Update ι α)) (r c : ι) :
    ∀ t : Table ι α,
      us.foldl Update.apply t r c = (lastWrite r c us).getD (t r c) := by
  induction us with
  | nil => intro t; rfl
  | cons u us ih =>
      intro t
      rw [List.foldl_cons, ih, lastWrite]
      cases lastWrite r c us with
      | none => rfl
      | some v => rfl

end Updates

/-! ## Row-major positions -/

/-- The linear index of a cell is inside the array. -/
theorem linear_lt {rows cols r c : Nat} (hr : r < rows) (hc : c < cols) :
    r * cols + c < rows * cols := by
  have hrow : (r + 1) * cols ≤ rows * cols := Nat.mul_le_mul_right cols hr
  rw [Nat.succ_mul] at hrow
  omega

/-- Distinct cells have distinct positions. -/
theorem linear_inj {cols r c r' c' : Nat} (hc : c < cols) (hc' : c' < cols)
    (h : r * cols + c = r' * cols + c') : r = r' ∧ c = c' := by
  have hpos : 0 < cols := by omega
  have hmod := congrArg (fun k => k % cols) h
  simp only [Nat.mul_add_mod_self_right, Nat.mod_eq_of_lt hc, Nat.mod_eq_of_lt hc'] at hmod
  rw [hmod] at h
  exact ⟨Nat.eq_of_mul_eq_mul_right hpos (Nat.add_right_cancel h), hmod⟩

/-- Every number below the size is the position of a cell. -/
theorem exists_linear {rows cols k : Nat} (h : k < rows * cols) :
    ∃ r c, r < rows ∧ c < cols ∧ r * cols + c = k := by
  have hpos : 0 < cols := Nat.pos_of_ne_zero (fun h0 => by simp [h0] at h)
  refine ⟨k / cols, k % cols, Nat.div_lt_of_lt_mul ?_, Nat.mod_lt k hpos, ?_⟩
  · rw [Nat.mul_comm]
    exact h
  · exact Nat.div_add_mod' k cols

end CPetTable
