import CPet.DoubleFormatProofs

/-! # From the updates of a matrix to its printed table

    Constructing a matrix, updating it and printing it are verified apart: the
    store refines a table, and the text parses to the cells rounded to
    hundredths.  Put together, whoever reads the text of `Matrix_toString`
    reads the table that the updates describe; nothing of how the matrix lies in
    memory shows. -/

namespace CPetMatrixText

open CPetMemory CPetRun CPetTable CPetMatrix CPetStringBuilder CPetStrconcat CPetRounding
open CPetDelimited CPetDecimal CPetDouble CPetToString CPetDoubleFormat

/-- The double that `calloc` leaves in a cell. -/
instance : Zero Double := ⟨⟨0, 0, by decide, by decide, by decide⟩⟩

/-- The value of a cell after updates: the last one written to it, or what the
    constructor put there. -/
def cellAfter (cols : UInt64) (src : Source Double) (us : List (Update UInt64 Double))
    (r c : UInt64) : Double :=
  (lastWrite r c us).getD (src.initial cols r c)

/-- The numbers that a reader of the text should find. -/
def printedTable (cols rows : UInt64) (src : Source Double) (us : List (Update UInt64 Double)) :
    List (List (Option ℚ)) :=
  (List.range rows.toNat).map (fun r : Nat =>
    (List.range cols.toNat).map (fun c : Nat =>
      some (cellAfter cols src us (UInt64.ofNat r) (UInt64.ofNat c)).toHundredth))

section Print

variable {env : Env} {cols rows : UInt64} {src : Source Double} {m : Matrix Double}
  {us : List (Update UInt64 Double)}

/-- Every cell holds the value that the updates left in it. -/
theorem represents_cellAfter (hbytes : cols.toNat * rows.toNat * sizeofDouble < 2 ^ 64)
    (hm : construct env cols rows src = .ok m) (hus : ∀ u ∈ us, InRange cols rows u) :
    Represents (us.foldl runUpdate m) cols rows (cellAfter cols src us) := by
  refine (represents_run (fits_of_bytes hbytes) us hus (represents_construct hbytes hm)).congr ?_
  intro r c _ _
  exact foldl_apply us r c (src.initial cols)

/-- The rows rounded to hundredths are those of the updates. -/
theorem roundedRows_of_represents
    (h : Represents (us.foldl runUpdate m) cols rows (cellAfter cols src us)) :
    (roundedRows (us.foldl runUpdate m)).map (fun row => row.map some)
      = printedTable cols rows src us := by
  rw [roundedRows, printedTable, List.map_map, h.rowsEq]
  refine List.map_congr_left ?_
  intro r hr
  show List.map some _ = _
  rw [List.map_map, h.colsEq]
  refine List.map_congr_left ?_
  intro c hc
  show some (Double.toHundredth (matrixGet _ _ _)) = _
  rw [h.cells _ _ (counter_lt (List.mem_range.mp hr)) (counter_lt (List.mem_range.mp hc))]

end Print

/-! ## How long the text is -/

section Length

variable (lround : Lround) {m : Matrix Double}

/-- Cells that fit the buffer have at most 18 characters. -/
theorem length_tableTexts_le
    (hfits : ∀ r c, r < m.rows → c < m.cols →
      ∀ lround', FitsBuffer (doubleFormat lround') (matrixGet m r c)) :
    (encodeTable tab newline (tableTexts (doubleFormat lround) m m.rows.toNat)).length
      ≤ m.rows.toNat * (m.cols.toNat * 19 + 1) := by
  have hrows : ∀ line ∈ (tableTexts (doubleFormat lround) m m.rows.toNat).map
      (joinTerminated tab), line.length ≤ m.cols.toNat * 19 := by
    intro line hline
    obtain ⟨row, hrow, rfl⟩ := List.mem_map.mp hline
    obtain ⟨r, hr, rfl⟩ := List.mem_map.mp hrow
    have hfields : ∀ field ∈ rowTexts (doubleFormat lround) m r m.cols.toNat,
        field.length ≤ 18 := by
      intro field hfield
      obtain ⟨c, hc, rfl⟩ := List.mem_map.mp hfield
      exact fitsBuffer_iff_length.mp (hfits _ _ (counter_lt (List.mem_range.mp hr))
        (counter_lt (List.mem_range.mp hc)) lround)
    have hlen : (joinTerminated tab _).length ≤ _ := length_joinTerminated_le hfields
    rwa [rowTexts, List.length_map, List.length_range] at hlen
  have hlen : (joinTerminated newline _).length ≤ _ := length_joinTerminated_le hrows
  have hcount : ((tableTexts (doubleFormat lround) m m.rows.toNat).map
      (joinTerminated tab)).length = m.rows.toNat := by
    rw [List.length_map, tableTexts, List.length_map, List.length_range]
  rw [hcount] at hlen
  exact hlen

/-- Such a text is built when no `realloc` is refused. -/
theorem allSucceed_of_granted {rt : Allocator} {stack : Stack} (hrt : ∀ i, rt i ≠ none)
    (hfits : ∀ r c, r < m.rows → c < m.cols →
      ∀ lround', FitsBuffer (doubleFormat lround') (matrixGet m r c))
    (hroom : m.rows.toNat * (m.cols.toNat * 19 + 1) < ptrdiffMax) :
    (matrixToString (doubleFormat lround) rt true stack m).AllSucceed := by
  have happended : Appended rt (matrixToString (doubleFormat lround) rt true stack m) _ _ :=
    appended_matrixToString plainText_f2Text (fun r c _ _ => shortText_double lround _)
  have hlen := length_tableTexts_le lround hfits
  exact happended.allSucceed_iff.mpr ⟨fun i _ => hrt i, by omega⟩

end Length

/-- **UPDATED, THEN PRINTED**: for every matrix a constructor returns and every
    sequence of `Matrix_set` and `Matrix_fill` calls after which the texts of the cells
    fit the buffer, if no `realloc` is refused, the text of `Matrix_toString` parses to
    the values the calls left, rounded to hundredths, row by row. -/
theorem printed_program_denotes {env : Env} {cols rows : UInt64} {src : Source Double}
    {m : Matrix Double} {us : List (Update UInt64 Double)}
    (hbytes : cols.toNat * rows.toNat * sizeofDouble < 2 ^ 64)
    (hm : construct env cols rows src = .ok m) (hus : ∀ u ∈ us, InRange cols rows u)
    (hfits : ∀ r c, r < rows → c < cols →
      ∀ lround, FitsBuffer (doubleFormat lround) (cellAfter cols src us r c))
    (hroom : rows.toNat * (cols.toNat * 19 + 1) < ptrdiffMax)
    (lround : Lround) {rt : Allocator} (hrt : ∀ i, rt i ≠ none) (stack : Stack) :
    ∃ p blk table,
      (matrixToString (doubleFormat lround) rt true stack (us.foldl runUpdate m)).result = some p
      ∧ (matrixToString (doubleFormat lround) rt true stack
          (us.foldl runUpdate m)).mem.heap.live p = some blk
      ∧ decodeTable tab newline (cells blk.cell
          (matrixToString (doubleFormat lround) rt true stack
            (us.foldl runUpdate m)).len.toNat) = some table
      ∧ table.map (fun row => row.map denoted) = printedTable cols rows src us := by
  have hrep := represents_cellAfter hbytes hm hus
  have hcells : ∀ r c, r < (us.foldl runUpdate m).rows → c < (us.foldl runUpdate m).cols →
      ∀ lround', FitsBuffer (doubleFormat lround') (matrixGet (us.foldl runUpdate m) r c) := by
    intro r c hr hc
    rw [hrep.rowsEq] at hr
    rw [hrep.colsEq] at hc
    rw [hrep.cells r c hr hc]
    exact hfits r c hr hc
  have hall : (matrixToString (doubleFormat lround) rt true stack
      (us.foldl runUpdate m)).AllSucceed :=
    allSucceed_of_granted lround hrt hcells (by rw [hrep.rowsEq, hrep.colsEq]; exact hroom)
  obtain ⟨p, blk, table, hresult, hlive, hdecode, hdenoted⟩ := printed_matrix_denotes hcells hall
  exact ⟨p, blk, table, hresult, hlive, hdecode,
    hdenoted.trans (roundedRows_of_represents hrep)⟩

/-- Integers of up to 17 digits fit the buffer. -/
theorem fitsBuffer_of_int {v : Double} {z : ℤ} (hv : v.value = z) (hlow : -10 ^ 17 < z)
    (hhigh : z < 10 ^ 18) (lround : Lround) : FitsBuffer (doubleFormat lround) v := by
  have hnear := near_of_int hv
  have hlong : FitsLong v := by
    rw [FitsLong, hv]
    exact ⟨by exact_mod_cast (by omega : (-2 ^ 63 : ℤ) ≤ z),
      by exact_mod_cast (by omega : z < 2 ^ 63)⟩
  have hround : nearbyint v = z := by
    rw [nearbyint, hv]
    exact (nearest_roundHalfEven (z : ℚ)).intCast
  rw [fitsBuffer_iff_length, cellText_of_near hnear, length_ldText_le_iff (by decide),
    lround_of_near hnear hlong, hround]
  exact ⟨hlow, hhigh⟩

/-- -7. -/
def minusSeven : Double := ⟨-7, 0, by decide, by decide, by decide⟩

/-- A row of two zeros, of which the second is set to -7. -/
theorem printed_program_denotes_minusSeven :
    ∃ p blk table,
      (matrixToString (doubleFormat lroundMin) (fun _ => some (fun _ => 88)) true (fun _ _ _ => 0)
          ([.set 0 1 minusSeven].foldl runUpdate ⟨2, 1, ⟨2, fun _ => 0⟩⟩)).result = some p
      ∧ (matrixToString (doubleFormat lroundMin) (fun _ => some (fun _ => 88)) true
          (fun _ _ _ => 0) ([.set 0 1 minusSeven].foldl runUpdate
            ⟨2, 1, ⟨2, fun _ => 0⟩⟩)).mem.heap.live p = some blk
      ∧ decodeTable tab newline (cells blk.cell
          (matrixToString (doubleFormat lroundMin) (fun _ => some (fun _ => 88)) true
            (fun _ _ _ => 0) ([.set 0 1 minusSeven].foldl runUpdate
              ⟨2, 1, ⟨2, fun _ => 0⟩⟩)).len.toNat) = some table
      ∧ table.map (fun row => row.map denoted)
        = printedTable 2 1 .zeros [.set 0 1 minusSeven] := by
  have hm : construct ⟨true, true⟩ 2 1 .zeros
      = .ok (⟨2, 1, ⟨2, fun _ => 0⟩⟩ : Matrix Double) := rfl
  have hus : ∀ u ∈ [Update.set 0 1 minusSeven], InRange 2 1 u := by decide
  have hfits : ∀ r c, r < 1 → c < 2 → ∀ lround,
      FitsBuffer (doubleFormat lround) (cellAfter 2 .zeros [.set 0 1 minusSeven] r c) := by
    intro r c _ _ lround
    have hcell : cellAfter 2 .zeros [.set 0 1 minusSeven] r c
        = if (0 : UInt64) = r ∧ (1 : UInt64) = c then minusSeven else 0 :=
      apply_set _ 0 1 _ r c
    rw [hcell]
    by_cases hset : (0 : UInt64) = r ∧ (1 : UInt64) = c
    · rw [if_pos hset]
      exact fitsBuffer_of_int (z := -7) (by norm_num [minusSeven, Double.value]) (by decide)
        (by decide) lround
    · rw [if_neg hset]
      refine fitsBuffer_of_int (z := 0) ?_ (by decide) (by decide) lround
      show ((0 : ℤ) : ℚ) * 2 ^ (0 : ℤ) = ((0 : ℤ) : ℚ)
      norm_num
  exact printed_program_denotes (by decide) hm hus hfits (by decide) lroundMin
    (fun _ => Option.some_ne_none _) _

end CPetMatrixText
