import CPet.MemoryProofs
import CPet.RunProofs
import CPet.TableProofs
import Mathlib.Tactic.Linarith

/-! # The matrix store

    A `Matrix` is its two dimensions and a block of `rows * cols` cells.  The
    constructors take the columns first, the accessors the row first, and all
    index arithmetic is on 64-bit `size_t` values and wraps.

    Two results.  Where the byte size does not wrap, the store refines a plain
    table: every cell holds what the last `Matrix_set` or `Matrix_fill`
    covering it wrote.  And the cells of a matrix that was handed out all lie
    inside its block, at distinct positions, exactly when the number of cells
    fits 64 bits: the product `rows * cols` wraps before `calloc` sees it. -/

namespace CPetMatrix

open CPetMemory CPetRun CPetTable

variable {α : Type}

/-- `Matrix`; the cells are doubles in the source. -/
structure Matrix (α : Type) where
  cols : UInt64
  rows : UInt64
  data : Block α

/-- `row * m->cols + col`, the index of `Matrix_get`, `Matrix_set` and
    `MATRIXP_VAL`. -/
def matrixIndex (m : Matrix α) (row col : UInt64) : UInt64 :=
  row * m.cols + col

/-- `Matrix_get(m, row, col)`. -/
def matrixGet (m : Matrix α) (row col : UInt64) : α :=
  m.data.cell (matrixIndex m row col).toNat

/-- `Matrix_set(m, row, col, val)`: the value of the assignment, and the matrix. -/
def matrixSet (m : Matrix α) (row col : UInt64) (val : α) : α × Matrix α :=
  (val, { m with data := m.data.store (matrixIndex m row col).toNat val })

/-- `Matrix_cols(m)`. -/
def matrixCols (m : Matrix α) : UInt64 := m.cols

/-- `Matrix_rows(m)`. -/
def matrixRows (m : Matrix α) : UInt64 := m.rows

/-- The inner loop of `Matrix_fill`: `MATRIXP_VAL(m, r, c) = value` for all `c`. -/
def fillRow (m : Matrix α) (r : Nat) (value : α) : Matrix α :=
  forRange m.cols.toNat (fun c m =>
    { m with
      data := m.data.store
        (matrixIndex m (UInt64.ofNat r) (UInt64.ofNat c)).toNat value }) m

/-- `Matrix_fill(m, value)`. -/
def matrixFill (m : Matrix α) (value : α) : Matrix α :=
  forRange m.rows.toNat (fun r m => fillRow m r value) m

/-! ## Allocation -/

/-- `COULD_NOT_ALLOCATE_ERROR`. -/
def couldNotAllocateError : Nat := 113

/-- `exit(code)`, with what was printed on stderr before it. -/
structure Exit where
  code : Nat
  stderr : String
  deriving DecidableEq

/-- Whether the next `calloc` and the next `malloc` find memory. -/
structure Env where
  callocOk : Bool
  mallocOk : Bool

/-- `sizeof(double)`. -/
def sizeofDouble : Nat := 8

/-- `calloc(sizeof(double), k)`: exactly `k` zeroed cells, or a failure, which
    is certain when the byte size does not fit 64 bits. -/
def calloc [Zero α] (ok : Bool) (k : UInt64) : Option (Block α) :=
  if ok = true ∧ sizeofDouble * k.toNat < 2 ^ 64 then some ⟨k.toNat, fun _ => 0⟩
  else none

/-- `allocateMatrix()`: the struct, or exit. -/
def allocateMatrix (env : Env) : Except Exit Unit :=
  if env.mallocOk then .ok ()
  else .error ⟨couldNotAllocateError,
    "Couldn't allocate memory for a Matrix: Cannot allocate memory\n"⟩

/-- `allocateZeroArray(cols, rows)`. -/
def allocateZeroArray [Zero α] (env : Env) (cols rows : UInt64) :
    Except Exit (Block α) :=
  -- the product has wrapped before `calloc` can check anything
  match calloc env.callocOk (rows * cols) with
  | some array => .ok array
  | none => .error ⟨couldNotAllocateError,
      "Couldn't allocate memory for a Matrix " ++ toString rows.toNat ++ "x" ++
        toString cols.toNat ++ "\n"⟩

/-- `Matrix_create(cols, rows, data)`. -/
def matrixCreate (env : Env) (cols rows : UInt64) (data : Block α) :
    Except Exit (Matrix α) := do
  allocateMatrix env
  return ⟨cols, rows, data⟩

/-- `Matrix_zeros(cols, rows)`. -/
def matrixZeros [Zero α] (env : Env) (cols rows : UInt64) :
    Except Exit (Matrix α) := do
  -- the array is an argument of `Matrix_create`, so it is allocated first
  let array ← allocateZeroArray env cols rows
  matrixCreate env cols rows array

/-- `memcpy` of a number of bytes that is a whole number of cells. -/
def memcpy (dst : Block α) (src : Nat → α) (bytes : UInt64) : Block α :=
  dst.storeList 0 (cells src (bytes.toNat / sizeofDouble))

/-- `Matrix_copy(cols, rows, data)`. -/
def matrixCopy [Zero α] (env : Env) (cols rows : UInt64) (data : Nat → α) :
    Except Exit (Matrix α) := do
  let m ← matrixZeros env cols rows
  return { m with data := memcpy m.data data (rows * cols * 8) }

/-- The two constructors, by the data they start from. -/
inductive Source (α : Type) where
  | zeros
  | copy (data : Nat → α)

/-- A matrix as its constructor returns it. -/
def construct [Zero α] (env : Env) (cols rows : UInt64) :
    Source α → Except Exit (Matrix α)
  | .zeros => matrixZeros env cols rows
  | .copy data => matrixCopy env cols rows data

/-- What a fresh matrix should hold. -/
def Source.initial [Zero α] (cols : UInt64) : Source α → Table UInt64 α
  | .zeros => fun _ _ => 0
  | .copy data => fun r c => data (r.toNat * cols.toNat + c.toNat)

/-- The matrix after a call of `Matrix_set` or `Matrix_fill`. -/
def runUpdate (m : Matrix α) : Update UInt64 α → Matrix α
  | .set row col value => (matrixSet m row col value).2
  | .fill value => matrixFill m value

/-- The call names a cell of the matrix. -/
def InRange (cols rows : UInt64) : Update UInt64 α → Prop
  | .set row col _ => row < rows ∧ col < cols
  | .fill _ => True

instance (cols rows : UInt64) : DecidablePred (InRange (α := α) cols rows)
  | .set row col _ => inferInstanceAs (Decidable (row < rows ∧ col < cols))
  | .fill _ => inferInstanceAs (Decidable True)

/-! ## Cells of a shape that fits -/

/-- The number of cells fits 64 bits. -/
def Fits (cols rows : UInt64) : Prop :=
  rows.toNat * cols.toNat < 2 ^ 64

/-- In a shape that fits, the index computation does not wrap. -/
theorem toNat_index {cols rows r c : UInt64} (hfit : Fits cols rows)
    (hr : r < rows) (hc : c < cols) :
    (r * cols + c).toNat = r.toNat * cols.toNat + c.toNat := by
  have hlt := linear_lt (UInt64.lt_iff_toNat_lt.mp hr) (UInt64.lt_iff_toNat_lt.mp hc)
  have hbound : r.toNat * cols.toNat + c.toNat < 2 ^ 64 := Nat.lt_trans hlt hfit
  rw [UInt64.toNat_add, UInt64.toNat_mul, Nat.mod_add_mod]
  exact Nat.mod_eq_of_lt hbound

theorem index_inj {cols rows r c r' c' : UInt64} (hfit : Fits cols rows)
    (hr : r < rows) (hc : c < cols) (hr' : r' < rows) (hc' : c' < cols)
    (h : (r * cols + c).toNat = (r' * cols + c').toNat) : r = r' ∧ c = c' := by
  rw [toNat_index hfit hr hc, toNat_index hfit hr' hc'] at h
  obtain ⟨h₁, h₂⟩ := linear_inj (UInt64.lt_iff_toNat_lt.mp hc)
    (UInt64.lt_iff_toNat_lt.mp hc') h
  exact ⟨UInt64.toNat_inj.mp h₁, UInt64.toNat_inj.mp h₂⟩

/-! ## Refinement of a table -/

/-- The matrix has this shape and its cells are those of the table. -/
structure Represents (m : Matrix α) (cols rows : UInt64) (t : Table UInt64 α) :
    Prop where
  colsEq : m.cols = cols
  rowsEq : m.rows = rows
  cells : ∀ r c, r < rows → c < cols → matrixGet m r c = t r c

/-- **STEP**: a store at a cell of the matrix updates the table at that cell. -/
theorem represents_set {m : Matrix α} {cols rows : UInt64} {t : Table UInt64 α}
    (hfit : Fits cols rows) (h : Represents m cols rows t) {row col : UInt64}
    (hrow : row < rows) (hcol : col < cols) (v : α) :
    Represents (matrixSet m row col v).2 cols rows
      (Update.apply t (.set row col v)) := by
  refine ⟨h.colsEq, h.rowsEq, ?_⟩
  intro r c hr hc
  have hcell : matrixGet (matrixSet m row col v).2 r c
      = Function.update m.data.cell (row * m.cols + col).toNat v
          (r * m.cols + c).toNat := rfl
  rw [hcell, apply_set]
  by_cases heq : row = r ∧ col = c
  · obtain ⟨hr', hc'⟩ := heq
    rw [if_pos ⟨hr', hc'⟩, hr', hc', Function.update_self]
  · rw [if_neg heq, Function.update_of_ne, ← h.cells r c hr hc]
    · rfl
    · intro hidx
      rw [h.colsEq] at hidx
      obtain ⟨h₁, h₂⟩ := index_inj hfit hr hc hrow hcol hidx
      exact heq ⟨h₁.symm, h₂.symm⟩

/-- Only the cells of the shape count. -/
theorem Represents.congr {m : Matrix α} {cols rows : UInt64} {t u : Table UInt64 α}
    (h : Represents m cols rows t)
    (htu : ∀ r c, r < rows → c < cols → t r c = u r c) : Represents m cols rows u := by
  refine ⟨h.colsEq, h.rowsEq, ?_⟩
  intro r c hr hc
  rw [h.cells r c hr hc, htu r c hr hc]

/-- The table while `Matrix_fill` is at row `n` and column `k`. -/
def filledTo (t : Table UInt64 α) (v : α) (n k : Nat) : Table UInt64 α :=
  fun r c => if r.toNat < n ∨ (r.toNat = n ∧ c.toNat < k) then v else t r c

theorem filledTo_succ (t : Table UInt64 α) (v : α) {n k : Nat} (hn : n < 2 ^ 64)
    (hk : k < 2 ^ 64) :
    Update.apply (filledTo t v n k) (.set (UInt64.ofNat n) (UInt64.ofNat k) v)
      = filledTo t v n (k + 1) := by
  funext r c
  have hr : UInt64.ofNat n = r ↔ r.toNat = n := by
    rw [← UInt64.toNat_inj, UInt64.toNat_ofNat_of_lt' hn]
    exact eq_comm
  have hc : UInt64.ofNat k = c ↔ c.toNat = k := by
    rw [← UInt64.toNat_inj, UInt64.toNat_ofNat_of_lt' hk]
    exact eq_comm
  simp only [apply_set, hr, hc, filledTo]
  by_cases hcell : r.toNat = n ∧ c.toNat = k
  · rw [if_pos hcell, if_pos (by omega)]
  · have hiff : (r.toNat < n ∨ (r.toNat = n ∧ c.toNat < k))
        ↔ (r.toNat < n ∨ (r.toNat = n ∧ c.toNat < k + 1)) := by omega
    rw [if_neg hcell]
    simp only [hiff]

/-- The inner loop completes a row. -/
theorem represents_fillRow {m : Matrix α} {cols rows : UInt64} {t : Table UInt64 α}
    {v : α} {n : Nat} (hfit : Fits cols rows) (hn : n < rows.toNat)
    (h : Represents m cols rows (filledTo t v n 0)) :
    Represents (fillRow m n v) cols rows (filledTo t v (n + 1) 0) := by
  have hn64 := Nat.lt_trans hn rows.toNat_lt
  have hend : Represents (fillRow m n v) cols rows (filledTo t v n m.cols.toNat) := by
    refine forRange_invariant (I := fun k m => Represents m cols rows (filledTo t v n k))
      m.cols.toNat h ?_
    intro k hk m' hm'
    rw [h.colsEq] at hk
    rw [← filledTo_succ t v hn64 (Nat.lt_trans hk cols.toNat_lt)]
    exact represents_set hfit hm' (counter_lt hn) (counter_lt hk) v
  refine hend.congr ?_
  intro r c _ hc
  have hc' := UInt64.lt_iff_toNat_lt.mp hc
  have hiff : (r.toNat < n ∨ (r.toNat = n ∧ c.toNat < m.cols.toNat))
      ↔ (r.toNat < n + 1 ∨ (r.toNat = n + 1 ∧ c.toNat < 0)) := by
    rw [h.colsEq]
    omega
  simp only [filledTo, hiff]

/-- **LOOPS**: `Matrix_fill` fills the table. -/
theorem represents_fill {m : Matrix α} {cols rows : UInt64} {t : Table UInt64 α}
    (hfit : Fits cols rows) (h : Represents m cols rows t) (v : α) :
    Represents (matrixFill m v) cols rows (Update.apply t (.fill v)) := by
  have hstart : Represents m cols rows (filledTo t v 0 0) := by
    refine h.congr ?_
    intro r c _ _
    rw [filledTo, if_neg (by omega)]
  have hend : Represents (matrixFill m v) cols rows (filledTo t v m.rows.toNat 0) := by
    refine forRange_invariant (I := fun n m => Represents m cols rows (filledTo t v n 0))
      m.rows.toNat hstart ?_
    intro n hn m' hm'
    rw [h.rowsEq] at hn
    exact represents_fillRow hfit hn hm'
  refine hend.congr ?_
  intro r c hr _
  rw [apply_fill, h.rowsEq, filledTo, if_pos (Or.inl (UInt64.lt_iff_toNat_lt.mp hr))]

/-- **RUN**: after any calls, the matrix represents the updated table. -/
theorem represents_run {cols rows : UInt64} (hfit : Fits cols rows)
    (us : List (Update UInt64 α)) (hus : ∀ u ∈ us, InRange cols rows u) :
    ∀ {m : Matrix α} {t : Table UInt64 α}, Represents m cols rows t →
      Represents (us.foldl runUpdate m) cols rows (us.foldl Update.apply t) := by
  induction us with
  | nil => intro m t h; exact h
  | cons u us ih =>
      intro m t h
      refine ih (fun u' hu' => hus u' (List.mem_cons_of_mem _ hu')) ?_
      have hu := hus u List.mem_cons_self
      cases u with
      | set row col v => exact represents_set hfit h hu.1 hu.2 v
      | fill v => exact represents_fill hfit h v

/-! ## The constructors -/

section Construct

variable [Zero α] {env : Env} {cols rows : UInt64}

/-- A matrix of zeros has as many cells as the wrapped product says. -/
theorem matrixZeros_ok {m : Matrix α} (h : matrixZeros env cols rows = .ok m) :
    sizeofDouble * (rows * cols).toNat < 2 ^ 64
      ∧ m = ⟨cols, rows, ⟨(rows * cols).toNat, fun _ => 0⟩⟩ := by
  rw [matrixZeros, allocateZeroArray, calloc] at h
  by_cases hok : env.callocOk = true ∧ sizeofDouble * (rows * cols).toNat < 2 ^ 64
  · rw [if_pos hok] at h
    cases hm : env.mallocOk with
    | false =>
        simp [matrixCreate, allocateMatrix, hm, bind, Except.bind] at h
    | true =>
        simp [matrixCreate, allocateMatrix, hm, bind, Except.bind, pure, Except.pure] at h
        exact ⟨hok.2, h.symm⟩
  · rw [if_neg hok] at h
    simp [bind, Except.bind] at h

theorem matrixCopy_ok {data : Nat → α} {m : Matrix α}
    (h : matrixCopy env cols rows data = .ok m) :
    sizeofDouble * (rows * cols).toNat < 2 ^ 64
      ∧ m = ⟨cols, rows, memcpy ⟨(rows * cols).toNat, fun _ => 0⟩ data
          (rows * cols * 8)⟩ := by
  rw [matrixCopy] at h
  cases hz : (matrixZeros env cols rows : Except Exit (Matrix α)) with
  | error e =>
      rw [hz] at h
      exact nomatch h
  | ok m₀ =>
      rw [hz] at h
      obtain ⟨hfit, hm₀⟩ := matrixZeros_ok hz
      subst hm₀
      exact ⟨hfit, (Except.ok.inj h).symm⟩

/-- A fresh matrix has the dimensions asked for and `rows * cols` cells, the
    product as `size_t` computes it; their bytes fit 64 bits. -/
theorem construct_shape {src : Source α} {m : Matrix α}
    (h : construct env cols rows src = .ok m) :
    m.cols = cols ∧ m.rows = rows ∧ m.data.size = (rows * cols).toNat
      ∧ sizeofDouble * (rows * cols).toNat < 2 ^ 64 := by
  cases src with
  | zeros =>
      obtain ⟨hfit, hm⟩ := matrixZeros_ok h
      rw [hm]
      exact ⟨rfl, rfl, rfl, hfit⟩
  | copy data =>
      obtain ⟨hfit, hm⟩ := matrixCopy_ok h
      rw [hm]
      exact ⟨rfl, rfl, storeList_size _ _ _, hfit⟩

theorem fits_of_bytes (hbytes : cols.toNat * rows.toNat * sizeofDouble < 2 ^ 64) :
    Fits cols rows := by
  rw [sizeofDouble, Nat.mul_comm cols.toNat] at hbytes
  exact Nat.lt_of_le_of_lt (Nat.le_mul_of_pos_right _ (by decide)) hbytes

/-- A fresh matrix represents its initial table. -/
theorem represents_construct {src : Source α} {m : Matrix α}
    (hbytes : cols.toNat * rows.toNat * sizeofDouble < 2 ^ 64)
    (h : construct env cols rows src = .ok m) :
    Represents m cols rows (src.initial cols) := by
  have hfit := fits_of_bytes hbytes
  obtain ⟨hcols, hrows, -, -⟩ := construct_shape h
  refine ⟨hcols, hrows, ?_⟩
  intro r c hr hc
  cases src with
  | zeros =>
      rw [(matrixZeros_ok h).2]
      rfl
  | copy data =>
      have hidx := toNat_index hfit hr hc
      have hlt := linear_lt (UInt64.lt_iff_toNat_lt.mp hr) (UInt64.lt_iff_toNat_lt.mp hc)
      have hcount : (rows * cols * 8).toNat / sizeofDouble = rows.toNat * cols.toNat := by
        rw [UInt64.toNat_mul, UInt64.toNat_mul, Nat.mod_mul_mod, Nat.mod_eq_of_lt]
        · exact Nat.mul_div_cancel _ (by decide)
        · rw [Nat.mul_comm rows.toNat]
          exact hbytes
      have hlen : r.toNat * cols.toNat + c.toNat
          < (cells data ((rows * cols * 8).toNat / sizeofDouble)).length := by
        rw [length_cells, hcount]
        exact hlt
      rw [(matrixCopy_ok h).2]
      show (Block.storeList _ 0 _).cell (r * cols + c).toNat = _
      rw [hidx, ← Nat.zero_add (r.toNat * cols.toNat + c.toNat), storeList_cell _ _ _ _ hlen,
        getElem_cells]
      rfl

end Construct

/-- **THE MATRIX STORE REFINES A TABLE**: where the byte size fits 64 bits, for
    every matrix a constructor returns and every sequence of `Matrix_set` calls
    at its cells and `Matrix_fill` calls, `Matrix_get` at every cell returns
    what the last call covering it wrote, or the initial value; the dimensions
    never change. -/
theorem matrix_refines_table [Zero α] {env : Env} {cols rows : UInt64}
    {src : Source α} {m : Matrix α}
    (hbytes : cols.toNat * rows.toNat * sizeofDouble < 2 ^ 64)
    (hm : construct env cols rows src = .ok m)
    (us : List (Update UInt64 α)) (hus : ∀ u ∈ us, InRange cols rows u) :
    matrixCols (us.foldl runUpdate m) = cols
      ∧ matrixRows (us.foldl runUpdate m) = rows
      ∧ ∀ r c, r < rows → c < cols →
          matrixGet (us.foldl runUpdate m) r c
            = (lastWrite r c us).getD (src.initial cols r c) := by
  have hrep := represents_run (fits_of_bytes hbytes) us hus (represents_construct hbytes hm)
  refine ⟨hrep.colsEq, hrep.rowsEq, ?_⟩
  intro r c hr hc
  rw [hrep.cells r c hr hc, foldl_apply]

/-- A table of 2 rows and 3 columns, set, filled and set again. -/
theorem matrix_refines_table_two_by_three :
    matrixCols ([.set 1 2 7, .fill 5, .set 0 1 9].foldl runUpdate
        (⟨3, 2, ⟨6, fun _ => 0⟩⟩ : Matrix Int)) = 3
      ∧ matrixRows ([.set 1 2 7, .fill 5, .set 0 1 9].foldl runUpdate
        (⟨3, 2, ⟨6, fun _ => 0⟩⟩ : Matrix Int)) = 2
      ∧ ∀ r c, r < 2 → c < 3 →
          matrixGet ([.set 1 2 7, .fill 5, .set 0 1 9].foldl runUpdate
              (⟨3, 2, ⟨6, fun _ => 0⟩⟩ : Matrix Int)) r c
            = (lastWrite r c [.set 1 2 7, .fill 5, .set 0 1 9]).getD
                (Source.zeros.initial 3 r c) :=
  have hm : construct ⟨true, true⟩ 3 2 .zeros
      = .ok (⟨3, 2, ⟨6, fun _ => 0⟩⟩ : Matrix Int) := rfl
  matrix_refines_table (by decide) hm _ (by decide)

/-! ## Size arithmetic -/

/-- Every cell lies inside the block, and distinct cells are stored apart. -/
def Addressable (m : Matrix α) : Prop :=
  (∀ r c, r < m.rows → c < m.cols → (matrixIndex m r c).toNat < m.data.size)
    ∧ ∀ r c r' c', r < m.rows → c < m.cols → r' < m.rows → c' < m.cols →
        matrixIndex m r c = matrixIndex m r' c' → r = r' ∧ c = c'

/-- **SIZE ARITHMETIC**: the cells of a matrix that was handed out are inside
    its block and apart from each other if and only if the exact product of
    its dimensions fits 64 bits. -/
theorem addressable_iff_fits [Zero α] {env : Env} {cols rows : UInt64}
    {src : Source α} {m : Matrix α} (h : construct env cols rows src = .ok m) :
    Addressable m ↔ Fits cols rows := by
  obtain ⟨hcols, hrows, hsize, hbytes⟩ := construct_shape h
  rw [Addressable, hsize, hcols, hrows]
  constructor
  · intro ⟨hin, _⟩
    by_contra hwrap
    -- the cell whose exact position is the number of cells allocated
    have hlt : (rows * cols).toNat < rows.toNat * cols.toNat :=
      Nat.lt_of_lt_of_le (rows * cols).toNat_lt (Nat.le_of_not_lt hwrap)
    obtain ⟨r, c, hr, hc, hpos⟩ := exists_linear hlt
    have hidx : (matrixIndex m (UInt64.ofNat r) (UInt64.ofNat c)).toNat
        = (rows * cols).toNat := by
      rw [matrixIndex, hcols, UInt64.toNat_add, UInt64.toNat_mul, Nat.mod_add_mod,
        toNat_counter hr, toNat_counter hc, hpos]
      exact Nat.mod_eq_of_lt (rows * cols).toNat_lt
    have hcell := hin _ _ (counter_lt hr) (counter_lt hc)
    omega
  · intro hfit
    have hexact : (rows * cols).toNat = rows.toNat * cols.toNat := by
      rw [UInt64.toNat_mul]
      exact Nat.mod_eq_of_lt hfit
    constructor
    · intro r c hr hc
      rw [matrixIndex, hcols, toNat_index hfit hr hc, hexact]
      exact linear_lt (UInt64.lt_iff_toNat_lt.mp hr) (UInt64.lt_iff_toNat_lt.mp hc)
    · intro r c r' c' hr hc hr' hc' heq
      rw [matrixIndex, matrixIndex, hcols] at heq
      exact index_inj hfit hr hc hr' hc' (congrArg UInt64.toNat heq)

theorem addressable_iff_fits_two_by_three :
    Addressable (⟨3, 2, ⟨6, fun _ => 0⟩⟩ : Matrix Int) ↔ Fits 3 2 :=
  have hm : construct ⟨true, true⟩ 3 2 .zeros
      = .ok (⟨3, 2, ⟨6, fun _ => 0⟩⟩ : Matrix Int) := rfl
  addressable_iff_fits hm

/-- `Matrix_zeros(2, 2^63 + 1)` asks `calloc` for two doubles and gets them;
    cell (1, 0) has index 2. -/
theorem addressable_fails_on_wrapping_shape :
    ¬ ∀ (env : Env) (cols rows : UInt64) (m : Matrix Int),
        matrixZeros env cols rows = .ok m → Addressable m := by
  intro h
  have hm := h ⟨true, true⟩ 2 9223372036854775809
    ⟨2, 9223372036854775809, ⟨2, fun _ => 0⟩⟩ rfl
  exact absurd (hm.1 1 0 (by decide) (by decide)) (by decide)

end CPetMatrix
