import Mathlib
import CPet.DelimitedProofs
import CPet.IntArrayProofs

/-! # The text of `printArray`

    `printArray` writes one line: each element with `"%d "`, then a newline.
    The lines printed by any number of calls are a table whose fields are
    decimal numerals, and a reader that knows only the two separators recovers
    every element of every line.

    The reader of a numeral is `String.toInt?`.  No single module of Mathlib brings
    in what the standard library proves of it, so all of Mathlib is imported. -/

namespace CPetPrintArray

open CPetSegment CPetRun CPetIntArray CPetDelimited

/-- The characters `%d` writes. -/
def decimal (v : Int) : List Char := (toString v).toList

/-- The text of the lines `rows`. -/
def linesText (rows : List (List Int)) : List Char :=
  encodeTable ' ' '\n' (rows.map (fun row => row.map decimal))

/-- Reading a printed text back: lines, fields, numbers. -/
def readLines (text : String) : Option (List (List Int)) :=
  (decodeTable ' ' '\n' text.toList).bind (fun rows =>
    rows.mapM (fun row => row.mapM (fun field => (String.ofList field).toInt?)))

/-! ## Numerals -/

/-- A numeral is made of digits and a minus sign. -/
theorem mem_decimal {v : Int} {c : Char} (h : c ∈ decimal v) : c = '-' ∨ c.isDigit = true := by
  have hdigits : ∀ n : Nat, c ∈ n.repr.toList → c.isDigit = true := by
    intro n hn
    rw [Nat.toList_repr] at hn
    exact Nat.isDigit_of_mem_toDigits (by decide) (by decide) hn
  cases v with
  | ofNat n => exact Or.inr (hdigits n h)
  | negSucc n =>
      have h' : c ∈ ("-" ++ (n + 1).repr).toList := h
      rw [String.toList_append] at h'
      rcases List.mem_append.mp h' with hsign | hrest
      · exact Or.inl (List.mem_singleton.mp hsign)
      · exact Or.inr (hdigits _ hrest)

/-- So it contains no other character, a separator say. -/
theorem not_mem_decimal {c : Char} (hminus : c ≠ '-') (hdigit : c.isDigit = false) (v : Int) :
    c ∉ decimal v := by
  intro h
  rcases mem_decimal h with heq | hd
  · exact hminus heq
  · rw [hdigit] at hd
    exact absurd hd Bool.false_ne_true

/-- **NUMERALS** are read back, -/
theorem toInt_decimal (v : Int) : (String.ofList (decimal v)).toInt? = some v := by
  rw [decimal, String.ofList_toList]
  exact Int.toInt?_repr v

/-- and so is a line of them, -/
theorem mapM_toInt_decimal (row : List Int) :
    (row.map decimal).mapM (fun field => (String.ofList field).toInt?) = some row := by
  induction row with
  | nil => rfl
  | cons v row ih =>
      rw [List.map_cons, List.mapM_cons, toInt_decimal, ih]
      rfl

/-- and all lines. -/
theorem mapM_lines (rows : List (List Int)) :
    (rows.map (fun row => row.map decimal)).mapM
      (fun row => row.mapM (fun field => (String.ofList field).toInt?)) = some rows := by
  induction rows with
  | nil => rfl
  | cons row rows ih =>
      rw [List.map_cons, List.mapM_cons, mapM_toInt_decimal, ih]
      rfl

/-- **ROUND TRIP**: the elements of all lines are read back. -/
theorem readLines_linesText {text : String} {rows : List (List Int)}
    (h : text.toList = linesText rows) : readLines text = some rows := by
  have hfree : ∀ c : Char, c ≠ '-' → c.isDigit = false →
      ∀ row ∈ rows.map (fun row => row.map decimal), ∀ field ∈ row, c ∉ field := by
    intro c hminus hdigit row hrow field hfield
    obtain ⟨vs, -, rfl⟩ := List.mem_map.mp hrow
    obtain ⟨v, -, rfl⟩ := List.mem_map.mp hfield
    exact not_mem_decimal hminus hdigit v
  rw [readLines, h, linesText,
    decodeTable_encode (by decide) (hfree ' ' (by decide) (by decide))
      (hfree '\n' (by decide) (by decide))]
  exact mapM_lines rows

/-! ## What `printArray` prints -/

@[simp] theorem linesText_nil : linesText [] = [] := rfl

/-- Lines printed later follow those printed before. -/
theorem linesText_append (rows rows' : List (List Int)) :
    linesText (rows ++ rows') = linesText rows ++ linesText rows' := by
  simp only [linesText, encodeTable, joinTerminated, List.map_append, List.flatMap_append]

/-- One line: each element and a blank, then a newline. -/
theorem linesText_singleton (row : List Int) :
    linesText [row] = joinTerminated ' ' (row.map decimal) ++ ['\n'] := by
  simp [linesText, encodeTable, joinTerminated]

/-- The elements of a line, one after the other. -/
theorem stdout_elements (n : Nat) (m : Mem) :
    (forRange n (fun i m => print (toString (load i m).1 ++ " ") (load i m).2) m).stdout.toList
        = m.stdout.toList ++ joinTerminated ' ' ((contents m.ar n).map decimal)
      ∧ (forRange n (fun i m => print (toString (load i m).1 ++ " ") (load i m).2) m).ar
        = m.ar := by
  induction n with
  | zero => exact ⟨(List.append_nil _).symm, rfl⟩
  | succ n ih =>
      obtain ⟨hout, har⟩ := ih
      refine ⟨?_, har⟩
      rw [forRange_succ, contents_succ, List.map_append, List.map_singleton,
        joinTerminated_concat, ← List.append_assoc, ← List.append_assoc, ← hout, ← har]
      simp only [print, load, String.toList_append, decimal, List.append_assoc]
      rfl

/-- **ONE LINE**: `printArray` appends the line of the first `len` elements. -/
theorem stdout_printArray (len : Int) (m : Mem) :
    (printArray len m).stdout.toList
      = m.stdout.toList ++ linesText [contents m.ar len.toNat] := by
  rw [linesText_singleton, ← List.append_assoc, ← (stdout_elements len.toNat m).1]
  show (_ ++ "\n").toList = _
  rw [String.toList_append]
  rfl

end CPetPrintArray
