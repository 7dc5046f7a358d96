import CPet.RunProofs
import Mathlib.Data.List.Basic

/-! # `readUntilNewline`

    Two loops, the second meant as a better way to write the first, read bytes up
    to a newline, one after the other.  At the end of the input the first keeps
    looking at the byte it read last, and the second at `EOF`, which is
    no newline.

    So the function reads two lines, and does not come back when the input
    has fewer. -/

namespace CPetInput

open CPetRun

/-- `'\n'` -/
def newline : UInt8 := 10

/-- The loop that is running. -/
inductive Pc where
  /-- `do scanf("%c", &ch); while(ch != '\n');` -/
  | scan
  /-- `while(getchar() != '\n');` -/
  | get
  | done
  deriving DecidableEq

/-- What is left of the input, and the local `ch`. -/
structure Reader where
  input : List UInt8
  ch : UInt8
  pc : Pc

/-- One round of a loop. -/
def step (s : Reader) : Reader :=
  match s.pc with
  | .scan =>
      -- `scanf` leaves `ch` as it is when there is no input
      let ch := s.input.head?.getD s.ch
      ⟨s.input.tail, ch, if ch = newline then .get else .scan⟩
  | .get => ⟨s.input.tail, s.ch, if s.input.head? = some newline then .done else .get⟩
  | .done => s

/-- `readUntilNewline()` on an input, with whatever `ch` holds. -/
def readUntilNewline (input : List UInt8) (ch : UInt8) : Reader := ⟨input, ch, .scan⟩

/-! ## Reading a line -/

variable {line rest : List UInt8}

theorem step_scan_cons (x : UInt8) (ch : UInt8) :
    step ⟨x :: rest, ch, .scan⟩ = ⟨rest, x, if x = newline then .get else .scan⟩ := rfl

theorem step_get_cons (x : UInt8) (ch : UInt8) :
    step ⟨x :: rest, ch, .get⟩ = ⟨rest, ch, if x = newline then .done else .get⟩ := by
  simp only [step, List.head?_cons, List.tail_cons, Option.some.injEq]

/-- The first loop ends behind the first newline, -/
theorem scan_line (hline : newline ∉ line) (ch : UInt8) :
    Reaches step ⟨line ++ newline :: rest, ch, .scan⟩ ⟨rest, newline, .get⟩ := by
  induction line generalizing ch with
  | nil => exact ⟨1, rfl⟩
  | cons x line ih =>
      rw [List.mem_cons, not_or] at hline
      refine Reaches.head ?_
      rw [List.cons_append, step_scan_cons, if_neg (Ne.symm hline.1)]
      exact ih hline.2 x

/-- and the second behind the next one. -/
theorem get_line (hline : newline ∉ line) (ch : UInt8) :
    Reaches step ⟨line ++ newline :: rest, ch, .get⟩ ⟨rest, ch, .done⟩ := by
  induction line with
  | nil => exact ⟨1, step_get_cons newline ch⟩
  | cons x line ih =>
      rw [List.mem_cons, not_or] at hline
      refine Reaches.head ?_
      rw [List.cons_append, step_get_cons, if_neg (Ne.symm hline.1)]
      exact ih hline.2

/-! ## Where it hangs -/

/-- Too few newlines are left for the loops still to run. -/
def Short (s : Reader) : Prop :=
  (s.pc = .scan ∧ s.input.count newline < 2) ∨ (s.pc = .get ∧ s.input.count newline < 1)

/-- **STEP**: a newline that is read ends only one of the loops. -/
theorem short_step (s : Reader) (h : Short s) : Short (step s) := by
  obtain ⟨input, ch, pc⟩ := s
  rcases h with ⟨hpc, hcount⟩ | ⟨hpc, hcount⟩
  · have hpc' : pc = .scan := hpc
    subst hpc'
    cases input with
    | nil =>
        by_cases hch : ch = newline
        · exact .inr ⟨if_pos hch, Nat.zero_lt_one⟩
        · exact .inl ⟨if_neg hch, Nat.zero_lt_two⟩
    | cons x rest =>
        rw [step_scan_cons]
        have hcount' : (x :: rest).count newline < 2 := hcount
        by_cases hx : x = newline
        · rw [hx, List.count_cons_self] at hcount'
          exact .inr ⟨if_pos hx, Nat.lt_of_succ_lt_succ hcount'⟩
        · rw [List.count_cons_of_ne hx] at hcount'
          exact .inl ⟨if_neg hx, hcount'⟩
  · have hpc' : pc = .get := hpc
    subst hpc'
    cases input with
    | nil => exact .inr ⟨rfl, Nat.zero_lt_one⟩
    | cons x rest =>
        rw [step_get_cons]
        have hcount' : (x :: rest).count newline < 1 := hcount
        by_cases hx : x = newline
        · rw [hx, List.count_cons_self] at hcount'
          exact absurd hcount' (by omega)
        · rw [List.count_cons_of_ne hx] at hcount'
          exact .inr ⟨if_neg hx, hcount'⟩

/-- With less than two newlines the function is not at its end, -/
theorem Short.not_done {s : Reader} (h : Short s) : s.pc ≠ .done := by
  rcases h with ⟨hpc, -⟩ | ⟨hpc, -⟩
  · rw [hpc]
    exact Pc.noConfusion
  · rw [hpc]
    exact Pc.noConfusion

/-- A function that has returned stays so. -/
theorem iterate_done (s : Reader) (h : s.pc = .done) (n : Nat) : step^[n] s = s := by
  have hfix : step s = s := by
    rw [step, h]
  exact Function.iterate_fixed hfix n

/-- Two newlines are found, and the function returns behind the second. -/
theorem reads_two_lines {input : List UInt8} (htwo : 2 ≤ input.count newline) (ch : UInt8) :
    ∃ first second rest, newline ∉ first ∧ newline ∉ second
      ∧ input = first ++ newline :: (second ++ newline :: rest)
      ∧ Reaches step (readUntilNewline input ch) ⟨rest, newline, .done⟩ := by
  have hmem : newline ∈ input := List.count_pos_iff.mp (by omega)
  obtain ⟨first, others, rfl, hfirst⟩ := List.eq_append_cons_of_mem hmem
  rw [List.count_append, List.count_eq_zero.mpr hfirst, List.count_cons_self] at htwo
  have hmem' : newline ∈ others := List.count_pos_iff.mp (by omega)
  obtain ⟨second, rest, rfl, hsecond⟩ := List.eq_append_cons_of_mem hmem'
  exact ⟨first, second, rest, hfirst, hsecond, rfl,
    (scan_line hfirst ch).trans (get_line hsecond newline)⟩

/-- Once the function has returned, nothing changes, so that it returns in one state. -/
theorem done_unique {r : Reader} {n p : Nat} (hn : (step^[n] r).pc = .done)
    (hp : (step^[p] r).pc = .done) : step^[n] r = step^[p] r := by
  have hafter := iterate_done _ hn p
  have hafter' := iterate_done _ hp n
  rw [← Function.iterate_add_apply] at hafter hafter'
  rw [← hafter, ← hafter', Nat.add_comm]

end CPetInput
