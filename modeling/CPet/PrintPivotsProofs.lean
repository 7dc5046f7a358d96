import CPet.PrintArrayProofs
import CPet.TerminalProofs

/-! # `printQuicksortArrayWithPivots`

    The function prints the line of `printArray` with colours: red for the two
    marked elements, purple for the pivot, a yellow background for the range
    being sorted.  After each element, and its space, the style is set back.

    So without colours the line is the one of `printArray`, each element
    shows the marks that it has, and the terminal is left as it was. -/

namespace CPetPrintPivots

open CPetSegment CPetRun CPetIntArray CPetDelimited CPetPrintArray CPetTerminal

def red : String := "\x1b[0;31m"

def reset : String := "\x1b[0m"

def bpurpble : String := "\x1b[1;35m"

def onYellow : String := "\x1b[43m"

/-- `printf` of the colours of the element `i`. -/
def printMarks (pivot hi asterisk0Idx asterisk1Idx i : Int) (m : Mem) : Mem :=
  let m :=
    if i = asterisk1Idx ∨ i = asterisk0Idx then print red m
    else if i = pivot then print bpurpble m
    else m
  if pivot ≤ i ∧ i ≤ hi then print onYellow m else m

/-- `printQuicksortArrayWithPivots(arr, len, pivot, hi, asterisk0Idx, asterisk1Idx)`. -/
def printQuicksortArrayWithPivots (len pivot hi asterisk0Idx asterisk1Idx : Int) (m : Mem) : Mem :=
  print "\n" (forRange len.toNat (fun i m =>
    let m := printMarks pivot hi asterisk0Idx asterisk1Idx i m
    print (toString (load i m).1 ++ " " ++ reset) (load i m).2) m)

/-- The style that the marks of the element `i` ask for. -/
def markStyle (pivot hi asterisk0Idx asterisk1Idx i : Int) : Style where
  foreground :=
    if i = asterisk1Idx ∨ i = asterisk0Idx then some 1 else if i = pivot then some 5 else none
  background := if pivot ≤ i ∧ i ≤ hi then some 3 else none
  bold := decide (¬ (i = asterisk1Idx ∨ i = asterisk0Idx) ∧ i = pivot)

/-- What is to be seen of the first `n` elements. -/
def markedCells (ar : Int → Int) (style : Int → Style) (n : Nat) : List (Char × Style) :=
  (List.range n).flatMap (fun i : Nat => inStyle (style i) (decimal (ar i) ++ [' ']))

section Elements

variable (pivot hi asterisk0Idx asterisk1Idx : Int)

/-- The text of the marks of an element. -/
def marksText (i : Int) : List Char :=
  (if i = asterisk1Idx ∨ i = asterisk0Idx then red.toList
    else if i = pivot then bpurpble.toList else [])
    ++ (if pivot ≤ i ∧ i ≤ hi then onYellow.toList else [])

/-- A text that is printed on a condition, before or instead of another. -/
theorem print_ite {c : Prop} [Decidable c] (text : String) {m m' : Mem} {rest : List Char}
    (h : m'.stdout.toList = m.stdout.toList ++ rest ∧ m'.ar = m.ar) :
    (if c then print text m else m').stdout.toList
        = m.stdout.toList ++ (if c then text.toList else rest)
      ∧ (if c then print text m else m').ar = m.ar := by
  by_cases hc : c
  · rw [if_pos hc, if_pos hc]
    exact ⟨String.toList_append, rfl⟩
  · rw [if_neg hc, if_neg hc]
    exact h

theorem printMarks_eq (i : Int) (m : Mem) :
    (printMarks pivot hi asterisk0Idx asterisk1Idx i m).stdout.toList
        = m.stdout.toList ++ marksText pivot hi asterisk0Idx asterisk1Idx i
      ∧ (printMarks pivot hi asterisk0Idx asterisk1Idx i m).ar = m.ar := by
  have hnone : ∀ m : Mem, m.stdout.toList = m.stdout.toList ++ [] ∧ m.ar = m.ar :=
    fun m => ⟨(List.append_nil _).symm, rfl⟩
  obtain ⟨hfore, hforear⟩ := print_ite (c := i = asterisk1Idx ∨ i = asterisk0Idx) red
    (print_ite (c := i = pivot) bpurpble (hnone m))
  obtain ⟨hback, hbackar⟩ := print_ite (c := pivot ≤ i ∧ i ≤ hi) onYellow (hnone _)
  rw [printMarks, marksText]
  refine ⟨?_, hbackar.trans hforear⟩
  rw [hback, hfore, List.append_assoc]

/-- The colour of the characters. -/
theorem display_foreground (i : Int) (shown : List (Char × Style)) :
    display (if i = asterisk1Idx ∨ i = asterisk0Idx then red.toList
        else if i = pivot then bpurpble.toList else []) ⟨shown, .plain, .text⟩
      = ⟨shown, { markStyle pivot hi asterisk0Idx asterisk1Idx i with background := none },
          .text⟩ := by
  rw [markStyle]
  by_cases hmark : i = asterisk1Idx ∨ i = asterisk0Idx
  · rw [if_pos hmark, if_pos hmark, decide_eq_false (fun h => h.1 hmark)]
    rfl
  rw [if_neg hmark, if_neg hmark]
  by_cases hpivot : i = pivot
  · rw [if_pos hpivot, if_pos hpivot, decide_eq_true ⟨hmark, hpivot⟩]
    rfl
  · rw [if_neg hpivot, if_neg hpivot, decide_eq_false (fun h => hpivot h.2)]
    rfl

/-- The colour behind them. -/
theorem display_background {c : Prop} [Decidable c] (shown : List (Char × Style)) (s : Style) :
    display (if c then onYellow.toList else []) ⟨shown, s, .text⟩
      = ⟨shown, { s with background := if c then some 3 else s.background }, .text⟩ := by
  by_cases hc : c
  · rw [if_pos hc, if_pos hc]
    rfl
  · rw [if_neg hc, if_neg hc]
    rfl

/-- The marks set the style of their element, from a plain one. -/
theorem display_marksText (i : Int) (shown : List (Char × Style)) :
    display (marksText pivot hi asterisk0Idx asterisk1Idx i) ⟨shown, .plain, .text⟩
      = ⟨shown, markStyle pivot hi asterisk0Idx asterisk1Idx i, .text⟩ := by
  rw [marksText, display_append, display_foreground pivot hi, display_background]
  rfl

theorem not_mem_element (v : Int) : esc ∉ decimal v ++ [' '] := by
  rw [List.mem_append, not_or]
  exact ⟨not_mem_decimal (by decide) (by decide) v, by decide⟩

/-- **ELEMENTS**, by induction: each is shown in its style, and leaves a plain one. -/
theorem display_elements (m : Mem) (n : Nat) :
    ∃ text, (forRange n (fun i m =>
        let m := printMarks pivot hi asterisk0Idx asterisk1Idx i m
        print (toString (load i m).1 ++ " " ++ reset) (load i m).2) m).stdout.toList
          = m.stdout.toList ++ text
      ∧ (forRange n (fun i m =>
        let m := printMarks pivot hi asterisk0Idx asterisk1Idx i m
        print (toString (load i m).1 ++ " " ++ reset) (load i m).2) m).ar = m.ar
      ∧ ∀ shown, display text ⟨shown, .plain, .text⟩
        = ⟨shown ++ markedCells m.ar (markStyle pivot hi asterisk0Idx asterisk1Idx) n,
            .plain, .text⟩ := by
  induction n with
  | zero =>
      refine ⟨[], (List.append_nil _).symm, rfl, ?_⟩
      intro shown
      rw [markedCells, List.range_zero, List.flatMap_nil, List.append_nil]
      rfl
  | succ n ih =>
      obtain ⟨text, hout, har, hshown⟩ := ih
      rw [forRange_succ]
      generalize forRange n _ m = m' at hout har ⊢
      obtain ⟨hmarks, hmarks'⟩ := printMarks_eq pivot hi asterisk0Idx asterisk1Idx n m'
      generalize printMarks pivot hi asterisk0Idx asterisk1Idx n m' = m'' at hmarks hmarks' ⊢
      refine ⟨text ++ (marksText pivot hi asterisk0Idx asterisk1Idx n
        ++ (decimal (m.ar n) ++ [' '] ++ reset.toList)), ?_, hmarks'.trans har, ?_⟩
      · show (m''.stdout ++ (toString (m''.ar n) ++ " " ++ reset)).toList = _
        rw [String.toList_append, String.toList_append, String.toList_append, hmarks, hout,
          hmarks', har, decimal]
        simp only [List.append_assoc]
        rfl
      · intro shown
        have hreset : ∀ (shown : List (Char × Style)) (s : Style),
            display reset.toList ⟨shown, s, .text⟩ = ⟨shown, .plain, .text⟩ :=
          fun _ _ => rfl
        rw [display_append, hshown, display_append, display_marksText, display_append,
          display_plain (not_mem_element _), hreset, markedCells, markedCells, List.range_succ,
          List.flatMap_append, List.flatMap_singleton, List.append_assoc]

end Elements

/-- **WHAT IS SEEN**: the call appends a text whose characters, without colours, are the
    line of `printArray`; each element is shown in the style of its marks, and
    the terminal is plain again at the end. -/
theorem printPivots_shows (len pivot hi asterisk0Idx asterisk1Idx : Int) (m : Mem) :
    ∃ text, (printQuicksortArrayWithPivots len pivot hi asterisk0Idx asterisk1Idx m).stdout.toList
        = m.stdout.toList ++ text
      ∧ display text ⟨[], .plain, .text⟩
        = ⟨markedCells m.ar (markStyle pivot hi asterisk0Idx asterisk1Idx) len.toNat
            ++ [('\n', .plain)], .plain, .text⟩
      ∧ (display text ⟨[], .plain, .text⟩).shown.map Prod.fst
        = linesText [contents m.ar len.toNat] := by
  obtain ⟨text, hout, -, hshown⟩ :=
    display_elements pivot hi asterisk0Idx asterisk1Idx m len.toNat
  have hdisplay : display (text ++ ['\n']) ⟨[], .plain, .text⟩
      = ⟨markedCells m.ar (markStyle pivot hi asterisk0Idx asterisk1Idx) len.toNat
          ++ [('\n', .plain)], .plain, .text⟩ := by
    rw [display_append, hshown]
    rfl
  refine ⟨text ++ ['\n'], ?_, hdisplay, ?_⟩
  · rw [printQuicksortArrayWithPivots, print, String.toList_append, hout, List.append_assoc]
    rfl
  · rw [hdisplay, linesText_singleton, List.map_append, markedCells, List.map_flatMap]
    simp only [map_fst_inStyle, joinTerminated, contents, List.map_map, List.flatMap_map]
    rfl

end CPetPrintPivots
