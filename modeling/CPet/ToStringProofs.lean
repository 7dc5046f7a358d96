import CPet.DelimitedProofs
import CPet.MatrixProofs
import CPet.StringBuilderProofs

/-! # `Matrix_toString`

    Two nested loops append one tab-terminated text per cell and one newline
    per row.  What the loops need to know about doubles is a parameter: which
    values are within 1e-4 of an integer, what `lround` makes of those, and
    what `%.2f` prints of the others.  So is whatever the stack holds behind
    the cell buffer and behind the newline.

    The bytes before the final length decode to the table of cell texts.  And
    as soon as there is a row to print, a byte is stored past a block. -/

namespace CPetToString

open CPetMemory CPetCString CPetRun CPetMatrix CPetStrconcat CPetStringBuilder CPetDelimited

variable {α : Type}

/-- What `Matrix_toString` uses of the doubles. -/
structure CellFormat (α : Type) where
  /-- `fabs(nearbyint(v) - v) < 1e-4` -/
  nearInteger : α → Bool
  lround : α → Int
  /-- the text of `%.2f` -/
  f2Text : α → List UInt8

/-- The text of a cell in the branch chosen for its value. -/
def cellText (fmt : CellFormat α) (v : α) : List UInt8 :=
  if fmt.nearInteger v then ldText (fmt.lround v) else fmt.f2Text v

def tab : UInt8 := 9

def newline : UInt8 := 10

/-- The text of a number holds no tab, no newline and no NUL. -/
def PlainText (text : List UInt8) : Prop :=
  tab ∉ text ∧ newline ∉ text ∧ (0 : UInt8) ∉ text

/-- `char buffer[20]`. -/
def bufferSize : Nat := 20

/-- The text, its tab and its NUL fit the buffer. -/
def FitsBuffer (fmt : CellFormat α) (v : α) : Prop :=
  (cellText fmt v).length + 2 ≤ bufferSize

/-- `INT_MAX`. -/
def intMax : Nat := 2147483647

/-- `sprintf` can return the length of the text and its tab, an `int`. -/
def ShortText (fmt : CellFormat α) (v : α) : Prop :=
  (cellText fmt v).length + 1 ≤ intMax

/-- A text that fits the buffer of a cell is short. -/
theorem FitsBuffer.shortText {fmt : CellFormat α} {v : α} (h : FitsBuffer fmt v) :
    ShortText fmt v := by
  rw [FitsBuffer, bufferSize] at h
  rw [ShortText, intMax]
  omega

/-- What the stack holds, per row and column of the loops. -/
abbrev Stack := Nat → Nat → Nat → UInt8

/-- The inner body: format a cell and append it. -/
def appendCell (fmt : CellFormat α) (rt : Allocator) (stack : Stack)
    (m : Matrix α) (r c : Nat) (b : Builder) : Builder :=
  let v := matrixGet m (UInt64.ofNat r) (UInt64.ofNat c)
  let (buffer, appendLen) := sprintf (stack r c) (cellText fmt v ++ [tab])
  b.append rt buffer (UInt64.ofNat appendLen)

/-- `char c = '\n'`, appended through its address. -/
def appendNewline (rt : Allocator) (behind : Nat → UInt8) (b : Builder) : Builder :=
  b.append rt (fun k => if k = 0 then newline else behind k) 1

/-- The outer body: the cells of a row and the newline. -/
def appendRow (fmt : CellFormat α) (rt : Allocator) (stack : Stack)
    (m : Matrix α) (r : Nat) (b : Builder) : Builder :=
  appendNewline rt (stack r m.cols.toNat)
    (forRange m.cols.toNat (fun c b => appendCell fmt rt stack m r c b) b)

/-- `Matrix_toString(m)`: the returned pointer is `result`; the final `len` and
    the memory it leaves stand beside it. -/
def matrixToString (fmt : CellFormat α) (rt : Allocator) (callocOk : Bool)
    (stack : Stack) (m : Matrix α) : Builder :=
  forRange m.rows.toNat (fun r b => appendRow fmt rt stack m r b)
    (Builder.start callocOk)

/-! ## The text -/

/-- The texts of the first `k` cells of row `r`. -/
def rowTexts (fmt : CellFormat α) (m : Matrix α) (r k : Nat) : List (List UInt8) :=
  (List.range k).map
    (fun c : Nat => cellText fmt (matrixGet m (UInt64.ofNat r) (UInt64.ofNat c)))

/-- The texts of the first `n` rows. -/
def tableTexts (fmt : CellFormat α) (m : Matrix α) (n : Nat) :
    List (List (List UInt8)) :=
  (List.range n).map (fun r : Nat => rowTexts fmt m r m.cols.toNat)

/-- One more cell of a row. -/
theorem rowTexts_succ (fmt : CellFormat α) (m : Matrix α) (r k : Nat) :
    rowTexts fmt m r (k + 1) = rowTexts fmt m r k
      ++ [cellText fmt (matrixGet m (UInt64.ofNat r) (UInt64.ofNat k))] := by
  simp [rowTexts, List.range_succ]

/-- One more row of a table: its cells, each with a tab, and a newline. -/
theorem encode_tableTexts_succ (fmt : CellFormat α) (m : Matrix α) (n : Nat) :
    encodeTable tab newline (tableTexts fmt m (n + 1))
      = encodeTable tab newline (tableTexts fmt m n)
        ++ joinTerminated tab (rowTexts fmt m n m.cols.toNat) ++ [newline] := by
  simp only [tableTexts, List.range_succ, List.map_append, List.map_cons, List.map_nil,
    encodeTable, joinTerminated_concat]

/-- A numeral contains neither separator and no NUL. -/
theorem plainText_ldText (n : Int) : PlainText (ldText n) := by
  have hout : ∀ x : UInt8, x.toNat < 45 → x ∉ ldText n := by
    intro x hlt hmem
    rcases mem_ldText hmem with hminus | hdigit
    · rw [hminus] at hlt
      exact absurd hlt (by decide)
    · omega
  exact ⟨hout tab (by decide), hout newline (by decide), hout 0 (by decide)⟩

section Text

variable {fmt : CellFormat α} {rt : Allocator} {stack : Stack} {m : Matrix α}

/-- Neither does the text of a cell, whichever of its two formats is used. -/
theorem plainText_cellText (hplain : ∀ v, PlainText (fmt.f2Text v)) (v : α) :
    PlainText (cellText fmt v) := by
  rw [cellText]
  by_cases h : fmt.nearInteger v
  · rw [if_pos h]
    exact plainText_ldText _
  · rw [if_neg h]
    exact hplain v

/-- **A CELL**: appending it puts its text behind the text so far. -/
theorem appended_appendCell (hplain : ∀ v, PlainText (fmt.f2Text v)) {r c : Nat}
    (hshort : ShortText fmt (matrixGet m (UInt64.ofNat r) (UInt64.ofNat c)))
    {b : Builder} {n : Nat} {text : List UInt8} (h : Appended rt b n text) :
    Appended rt (appendCell fmt rt stack m r c b) (n + 1)
      (text ++ cellText fmt (matrixGet m (UInt64.ofNat r) (UInt64.ofNat c)) ++ [tab]) := by
  let piece := cellText fmt (matrixGet m (UInt64.ofNat r) (UInt64.ofNat c)) ++ [tab]
  have hlen : piece.length ≤ intMax := by
    have hlength : piece.length
        = (cellText fmt (matrixGet m (UInt64.ofNat r) (UInt64.ofNat c))).length + 1 := by
      simp [piece]
    rw [hlength]
    exact hshort
  have hlen64 : (UInt64.ofNat piece.length).toNat = piece.length :=
    UInt64.toNat_ofNat_of_lt' (Nat.lt_of_le_of_lt hlen (by decide))
  -- `strncpy` stops at a NUL, and the cell's text has none
  have hnul : (0 : UInt8) ∉ piece := by
    have hcell := (plainText_cellText hplain
      (matrixGet m (UInt64.ofNat r) (UInt64.ofNat c))).2.2
    simp [piece, hcell, tab]
  have happend : Appended rt (appendCell fmt rt stack m r c b) (n + 1)
      (text ++ cells (sprintf (stack r c) piece).1 (UInt64.ofNat piece.length).toNat) := by
    refine appended_append h ?_ ?_
    · rw [hlen64]
      exact Nat.le_trans hlen (by decide)
    · intro k hk heq
      rw [hlen64] at hk
      exact hnul (heq ▸ sprintf_mem (stack r c) hk)
  rw [hlen64, cells_sprintf, ← List.append_assoc] at happend
  exact happend

/-- The newline is appended from a `char` that no NUL need follow. -/
theorem appended_appendNewline {behind : Nat → UInt8} {b : Builder} {n : Nat}
    {text : List UInt8} (h : Appended rt b n text) :
    Appended rt (appendNewline rt behind b) (n + 1) (text ++ [newline]) := by
  refine appended_append h (by decide) ?_
  intro k hk
  have hk0 : k = 0 := Nat.lt_one_iff.mp hk
  rw [if_pos hk0]
  decide

/-- **ROW**: the inner loop and the newline append one encoded line. -/
theorem appended_appendRow (hplain : ∀ v, PlainText (fmt.f2Text v)) {r : Nat}
    (hshort : ∀ c, c < m.cols.toNat →
      ShortText fmt (matrixGet m (UInt64.ofNat r) (UInt64.ofNat c)))
    {b : Builder} {n : Nat} {text : List UInt8} (h : Appended rt b n text) :
    Appended rt (appendRow fmt rt stack m r b) (n + m.cols.toNat + 1)
      (text ++ joinTerminated tab (rowTexts fmt m r m.cols.toNat) ++ [newline]) := by
  refine appended_appendNewline ?_
  refine forRange_invariant (I := fun k b => Appended rt b (n + k)
    (text ++ joinTerminated tab (rowTexts fmt m r k))) m.cols.toNat ?_ ?_
  · -- no cell yet
    rw [rowTexts, List.range_zero, List.map_nil, joinTerminated_nil, List.append_nil]
    exact h
  · intro c hc b' hb'
    rw [rowTexts_succ, joinTerminated_concat, ← List.append_assoc, ← List.append_assoc]
    exact appended_appendCell hplain (hshort c hc) hb'

/-- **TEXT**: while nothing fails, the result is the encoded table; a row makes
    one call for every cell and one for the newline. -/
theorem appended_matrixToString (hplain : ∀ v, PlainText (fmt.f2Text v))
    (hshort : ∀ r c, r < m.rows.toNat → c < m.cols.toNat →
      ShortText fmt (matrixGet m (UInt64.ofNat r) (UInt64.ofNat c))) :
    Appended rt (matrixToString fmt rt true stack m) (m.rows.toNat * (m.cols.toNat + 1))
      (encodeTable tab newline (tableTexts fmt m m.rows.toNat)) := by
  refine forRange_invariant (I := fun n b => Appended rt b (n * (m.cols.toNat + 1))
    (encodeTable tab newline (tableTexts fmt m n))) m.rows.toNat ?_ ?_
  · rw [Nat.zero_mul]
    exact appended_start rt
  · intro r hr b hb
    rw [encode_tableTexts_succ, Nat.succ_mul, ← Nat.add_assoc]
    exact appended_appendRow hplain (hshort r · hr) hb

end Text

/-- The table of cell texts, field `c` of line `r` for `Matrix_get(m, r, c)`. -/
def cellTexts (fmt : CellFormat α) (m : Matrix α) : List (List (List UInt8)) :=
  tableTexts fmt m m.rows.toNat

/-- All fields of a table are plain. -/
theorem plain_of_mem_cellTexts {fmt : CellFormat α} {m : Matrix α}
    (hplain : ∀ v, PlainText (fmt.f2Text v)) :
    ∀ row ∈ cellTexts fmt m, ∀ field ∈ row, PlainText field := by
  intro row hrow field hfield
  obtain ⟨r, -, hr⟩ := List.mem_map.mp hrow
  rw [← hr] at hfield
  obtain ⟨c, -, hc⟩ := List.mem_map.mp hfield
  rw [← hc]
  exact plainText_cellText hplain _

/-- So the table of the texts survives the delimiters. -/
theorem decodeTable_cellTexts {fmt : CellFormat α} {m : Matrix α}
    (hplain : ∀ v, PlainText (fmt.f2Text v)) :
    decodeTable tab newline (encodeTable tab newline (cellTexts fmt m))
      = some (cellTexts fmt m) := by
  have hfields := plain_of_mem_cellTexts (m := m) hplain
  exact decodeTable_encode (by decide)
    (fun row hrow field hfield => (hfields row hrow field hfield).1)
    (fun row hrow field hfield => (hfields row hrow field hfield).2.1)

/-- **`Matrix_toString` IS DECODABLE**: for every matrix whose cell texts fit
    the buffer, when no allocation fails, the first `len` bytes of the result
    are `rows` newline-terminated lines of `cols` tab-terminated fields, the
    texts of the cells in their places. -/
theorem matrixToString_decodes {fmt : CellFormat α} {rt : Allocator} {stack : Stack}
    {m : Matrix α} (hplain : ∀ v, PlainText (fmt.f2Text v))
    (hfits : ∀ r c, r < m.rows → c < m.cols → FitsBuffer fmt (matrixGet m r c))
    (hall : (matrixToString fmt rt true stack m).AllSucceed) :
    ∃ p blk, (matrixToString fmt rt true stack m).result = some p
      ∧ (matrixToString fmt rt true stack m).mem.heap.live p = some blk
      ∧ (matrixToString fmt rt true stack m).len.toNat < blk.size
      ∧ decodeTable tab newline
          (cells blk.cell (matrixToString fmt rt true stack m).len.toNat)
        = some (cellTexts fmt m) := by
  have hshort : ∀ r c, r < m.rows.toNat → c < m.cols.toNat →
      ShortText fmt (matrixGet m (UInt64.ofNat r) (UInt64.ofNat c)) :=
    fun r c hr hc => (hfits _ _ (counter_lt hr) (counter_lt hc)).shortText
  obtain ⟨p, blk, hholds⟩ := (appended_matrixToString hplain hshort).accumulated hall
  have hsize := hholds.size
  have hlen := hholds.len
  refine ⟨p, blk, hholds.result, hholds.live, by omega, ?_⟩
  rw [hlen, hholds.text]
  exact decodeTable_cellTexts hplain

/-- Doubles that are integers, as the source prints them. -/
def integerFormat : CellFormat Int where
  nearInteger := fun _ => true
  lround := fun v => v
  f2Text := fun v => ldText v ++ [46, 48, 48]

theorem plainText_integerFormat (v : Int) : PlainText (integerFormat.f2Text v) := by
  obtain ⟨htab, hnewline, hnul⟩ := plainText_ldText v
  have hout : ∀ x : UInt8, x ∉ ldText v → x ∉ [46, 48, 48] → x ∉ integerFormat.f2Text v :=
    fun x h₁ h₂ hmem => (List.mem_append.mp hmem).elim h₁ h₂
  exact ⟨hout tab htab (by decide), hout newline hnewline (by decide), hout 0 hnul (by decide)⟩

/-- A row of two cells holding -7. -/
def sevens : Matrix Int := ⟨2, 1, ⟨2, fun _ => -7⟩⟩

theorem matrixToString_decodes_sevens :
    ∃ p blk, (matrixToString integerFormat (fun _ => some (fun _ => 88)) true
          (fun _ _ _ => 0) sevens).result = some p
      ∧ (matrixToString integerFormat (fun _ => some (fun _ => 88)) true
          (fun _ _ _ => 0) sevens).mem.heap.live p = some blk
      ∧ (matrixToString integerFormat (fun _ => some (fun _ => 88)) true
          (fun _ _ _ => 0) sevens).len.toNat < blk.size
      ∧ decodeTable tab newline (cells blk.cell
          (matrixToString integerFormat (fun _ => some (fun _ => 88)) true
            (fun _ _ _ => 0) sevens).len.toNat)
        = some (cellTexts integerFormat sevens) := by
  refine matrixToString_decodes plainText_integerFormat ?_ (by decide)
  intro r c _ _
  show (cellText integerFormat (-7)).length + 2 ≤ bufferSize
  decide

/-! ## The bytes stored -/

/-- **OUT OF BOUNDS**: no `strconcat` call whose `realloc` succeeds keeps its
    stores inside the new block; so the stores of a `Matrix_toString` call in
    which no `realloc` fails are all inside their blocks exactly when there is
    no row, and hence no call, at all. -/
theorem strconcat_writes_outside :
    (∀ (rt : Allocator) (dst : Option Nat) (append : Nat → UInt8)
        (dstLen appendLen : UInt64) (s : StrMem),
        (strconcat rt dst append dstLen appendLen s).1 ≠ none →
        ¬ WritesInBounds s (strconcat rt dst append dstLen appendLen s).2)
      ∧ ∀ (fmt : CellFormat α) (rt : Allocator) (stack : Stack) (m : Matrix α),
          (matrixToString fmt rt true stack m).AllSucceed →
          ((∀ st ∈ (matrixToString fmt rt true stack m).mem.stores, st.InBounds)
            ↔ m.rows = 0) := by
  refine ⟨fun _ _ _ _ _ _ h => strconcat_outside h, ?_⟩
  intro fmt rt stack m hall
  rw [← UInt64.toNat_inj, UInt64.toNat_zero]
  rw [matrixToString] at hall ⊢
  cases hrows : m.rows.toNat with
  | zero => simp [forRange, Builder.start]
  | succ n =>
      rw [hrows, forRange_succ] at hall
      obtain ⟨st, hst, hout⟩ := append_store_outside hall
      constructor
      · intro hin
        exact absurd (hin st hst) hout
      · intro h
        exact nomatch h

theorem strconcat_writes_outside_h :
    ¬ WritesInBounds (Builder.start true).mem
        (strconcat (fun _ => some (fun _ => 0)) (some 0) (fun _ => 104) 0 1
          (Builder.start true).mem).2
      ∧ ((∀ st ∈ (matrixToString integerFormat (fun _ => some (fun _ => 0)) true
          (fun _ _ _ => 0) sevens).mem.stores, st.InBounds)
        ↔ sevens.rows = 0) := by
  obtain ⟨hcall, htext⟩ := @strconcat_writes_outside Int
  exact ⟨hcall _ _ _ _ _ _ (by decide), htext _ _ _ _ (by decide)⟩

/-- The letter `h` appended to the empty string: two bytes are allocated, and
    the terminator goes to offset 2. -/
theorem strconcat_overruns_two_bytes :
    ¬ ∀ (rt : Allocator) (dst : Option Nat) (append : Nat → UInt8)
        (dstLen appendLen : UInt64) (s : StrMem),
        dstLen.toNat ≤ (blockAt s.heap dst).size →
        dstLen.toNat + appendLen.toNat + 1 < 2 ^ 64 →
        (strconcat rt dst append dstLen appendLen s).1 ≠ none →
        WritesInBounds s (strconcat rt dst append dstLen appendLen s).2 := by
  intro h
  refine strconcat_outside ?_ (h (fun _ => some (fun _ => 0)) (some 0) (fun _ => 104) 0 1
    (Builder.start true).mem (by decide) (by decide) (by decide))
  decide

end CPetToString
