import CPet.QuicksortProofs

/-! # The partition contract of `quicksort0`

    What one activation promises, whether or not its `while(true)` loop comes
    to an end: at every step the indices stay in the range, with `j` at most
    one behind `i`, and both ends of the range are classified.  If the `break`
    is met, the exchange after it leaves the range partitioned around `j`.

    A scan dereferences before it tests its index guard, so what a step
    touches depends on where it stands only.  The reads of the debug print in
    `swap` are kept apart: they belong to no scan and no exchange. -/

namespace CPetQuicksort

open CPetSegment CPetRun CPetIntArray

/-! ## What one step of the loop touches -/

/-- The elements that the scans and the exchanges of a step load and store,
    latest first. -/
def ownAccesses : Pc → Locals → List Int
  | .scanI, v => [v.i]
  | .scanJ, v => [v.j]
  | .test, v => if v.i ≥ v.j then [v.j, v.lo, v.j, v.lo] else [v.j, v.i, v.j, v.i]

/-- The elements that the debug print of a step reads. -/
def printAccesses : Pc → List Int
  | .scanI => []
  | .scanJ => []
  | .test => (List.range qsArrayLen.toNat).reverse.map (fun k : Nat => (k : Int))

theorem mem_printAccesses_test (k : Int) :
    k ∈ printAccesses .test ↔ 0 ≤ k ∧ k < qsArrayLen := mem_printed qsArrayLen k

/-- The debug print stays below `QS_ARRAY_LEN`, whatever the range. -/
theorem printAccesses_inside {pc : Pc} {k : Int} (hk : k ∈ printAccesses pc) :
    0 ≤ k ∧ k < qsArrayLen := by
  cases pc with
  | scanI => exact nomatch hk
  | scanJ => exact nomatch hk
  | test => exact (mem_printAccesses_test k).mp hk

/-- What a step accesses itself lies between the ends of the range. -/
theorem ownAccesses_inside {v : Locals} (hi : v.lo + 1 ≤ v.i ∧ v.i ≤ v.hi)
    (hj : v.i - 1 ≤ v.j ∧ v.j ≤ v.hi) {pc : Pc} :
    ∀ k ∈ ownAccesses pc v, v.lo ≤ k ∧ k ≤ v.hi := by
  intro k hk
  cases pc with
  | scanI =>
      rw [List.mem_singleton.mp hk]
      omega
  | scanJ =>
      -- `j` may be `i - 1`, which is at least `lo`
      rw [List.mem_singleton.mp hk]
      omega
  | test =>
      rw [ownAccesses] at hk
      by_cases hx : v.i ≥ v.j
      · simp only [if_pos hx, List.mem_cons, List.not_mem_nil, or_false] at hk
        omega
      · simp only [if_neg hx, List.mem_cons, List.not_mem_nil, or_false] at hk
        omega

/-- A swap loads and stores two elements, and prints. -/
theorem touched_swap_eq (i j : Int) (m : Mem) :
    (swap i j m).touched = printAccesses .test ++ ([j, i, j, i] ++ m.touched) := by
  rw [swap, touched_printArray]
  rfl

/-- What a step that stays in the loop touches. -/
theorem LoopStep.touched {m m' : Mem} {pc pc' : Pc} {v v' : Locals}
    (h : LoopStep m v pc m' pc' v') :
    m'.touched = printAccesses pc ++ (ownAccesses pc v ++ m.touched) := by
  cases h with
  | exchange hij =>
      rw [ownAccesses, if_neg (not_le.mpr hij)]
      exact touched_swap_eq _ _ _
  | _ => rfl

/-- **ACCESSES**: nothing else is touched by a step of the loop. -/
theorem step_touched {s : Machine} {pc : Pc} {v : Locals} {rest : List Frame}
    (h : s.stack = .loop pc v :: rest) :
    (step s).mem.touched = printAccesses pc ++ (ownAccesses pc v ++ s.mem.touched) := by
  obtain ⟨m, stack⟩ := s
  have hstack : stack = .loop pc v :: rest := h
  subst hstack
  rcases step_loop m pc v rest with ⟨m', pc', v', hmove, hstep⟩ | ⟨rfl, hij⟩
  · rw [hstep]
    exact hmove.touched
  · rw [step_break hij, ownAccesses, if_pos hij]
    exact touched_swap_eq _ _ _

/-! ## The contract -/

/-- The machine is about to break out of its topmost loop. -/
def breaks (s : Machine) : Bool :=
  match s.stack with
  | .loop .test v :: _ => decide (v.j ≤ v.i)
  | _ => false

/-- What holds at every step of the loop of `quicksort0(ar, lo, hi)`, entered on
    memory `a` and now on memory `ar`. -/
structure LoopContract (lo hi : Int) (a ar : Int → Int) (pc : Pc) (v : Locals) : Prop where
  range : v.lo = lo ∧ v.hi = hi
  pivot : v.pivot = a lo
  i_bounds : lo + 1 ≤ v.i ∧ v.i ≤ hi
  j_bounds : v.i - 1 ≤ v.j ∧ v.j ≤ hi
  inside : ∀ k ∈ ownAccesses pc v, lo ≤ k ∧ k ≤ hi
  below : ∀ k, lo + 1 ≤ k → k < v.i → ar k < a lo
  above : ∀ k, v.j < k → k ≤ hi → a lo < ar k

/-- What the exchange after the loop leaves behind: `b` is `a` with the pivot at
    `j`. -/
structure ExitContract (lo hi j : Int) (a b : Int → Int) : Prop where
  lo_le_j : lo ≤ j
  j_le_hi : j ≤ hi
  pivot : b j = a lo
  left : ∀ k, lo ≤ k → k < j → b k ≤ a lo
  right : ∀ k, j < k → k ≤ hi → a lo < b k
  permuted : Rearranged lo hi a b
  frame : ∀ k, ¬ (lo ≤ k ∧ k ≤ hi) → b k = a k

/-- The invariant of the loop says what the contract promises, -/
theorem InLoop.loopContract {a : Int → Int} {lo hi : Int} {rest : List Frame} {pc : Pc}
    {v : Locals} {s : Machine} (h : InLoop a lo hi rest pc v s) :
    LoopContract lo hi a s.mem.ar pc v := by
  obtain ⟨-, hinv, hlo, hhi, hpivot, -⟩ := h
  subst hlo hhi
  refine ⟨⟨rfl, rfl⟩, hpivot, ⟨hinv.lo_lt_i, hinv.i_le_hi⟩, ⟨hinv.i_le_j, hinv.j_le_hi⟩,
    ownAccesses_inside ⟨hinv.lo_lt_i, hinv.i_le_hi⟩ ⟨hinv.i_le_j, hinv.j_le_hi⟩, ?_, ?_⟩
  · rw [← hpivot]
    exact hinv.below
  · rw [← hpivot]
    exact hinv.above

/-- and so does what the break leaves behind. -/
theorem Partitioned.exitContract {lo hi j : Int} {a b : Int → Int}
    (h : Partitioned lo hi j a b) : ExitContract lo hi j a b where
  lo_le_j := h.lo_le_j
  j_le_hi := h.j_le_hi
  pivot := h.pivot
  left := by
    intro k h₁ h₂
    rw [← h.pivot]
    exact h.le_pivot k h₁ (by omega)
  right := by
    intro k h₁ h₂
    rw [← h.pivot]
    exact h.above k h₁ h₂
  permuted := h.rearranged
  frame := fun _ hk => h.rearranged.outside hk

/-- Breaking out of the loop is at the exit test, with `j ≤ i`. -/
theorem InLoop.breaks_iff {a : Int → Int} {lo hi : Int} {rest : List Frame} {pc : Pc}
    {v : Locals} {s : Machine} (h : InLoop a lo hi rest pc v s) :
    breaks s = true ↔ pc = .test ∧ v.j ≤ v.i := by
  rw [breaks, h.stack]
  cases pc with
  | scanI => exact iff_of_false nofun (fun h => nomatch h.1)
  | scanJ => exact iff_of_false nofun (fun h => nomatch h.1)
  | test => exact decide_eq_true_iff.trans ⟨fun hij => ⟨rfl, hij⟩, fun h => h.2⟩

/-- An activation of `quicksort0(ar, lo, hi)` that has entered its loop. -/
def entered (lo hi : Int) (m : Mem) (rest : List Frame) : Machine :=
  step ⟨m, .call lo hi :: rest⟩

/-- **PARTITION CONTRACT**: as long as the `break` has not been met, the run is at
    a step of the loop, and the break leads to a partitioned range. -/
theorem partition_contract {lo hi : Int} (hlt : lo < hi) (m : Mem) (rest : List Frame) {n : Nat}
    (hrun : ∀ p, p < n → breaks (step^[p] (entered lo hi m rest)) = false) :
    ∃ s pc v, step^[n] (entered lo hi m rest) = s
      ∧ s.stack = .loop pc v :: rest
      ∧ LoopContract lo hi m.ar s.mem.ar pc v
      ∧ (step s).mem.touched = printAccesses pc ++ (ownAccesses pc v ++ s.mem.touched)
      ∧ (breaks s = true →
          step s = ⟨swap lo v.j s.mem, .call lo (v.j - 1) :: .call (v.j + 1) hi :: rest⟩
            ∧ ExitContract lo hi v.j m.ar (swap lo v.j s.mem).ar) := by
  rcases inLoop_run n _ ⟨_, _, inLoop_enter hlt m rest⟩ with ⟨pc, v, hin⟩ | ⟨p, v, hp, hin, hij⟩
  · refine ⟨_, pc, v, rfl, hin.stack, hin.loopContract, step_touched hin.stack, ?_⟩
    intro hb
    obtain ⟨rfl, hij⟩ := hin.breaks_iff.mp hb
    obtain ⟨hstep, hpart⟩ := step_of_exit hin hij
    exact ⟨hstep, hpart.exitContract⟩
  · -- the break has been met before
    have hbreak := hin.breaks_iff.mpr ⟨rfl, hij⟩
    exact absurd hbreak (ne_true_of_eq_false (hrun p hp))

/-- On `{2, 1}` both scans stop at once, and the break comes next. -/
theorem partition_contract_pair :
    ∃ s pc v, step^[2] (entered 0 1 ⟨fun k => 2 - k, [], ""⟩ []) = s
      ∧ s.stack = [.loop pc v]
      ∧ LoopContract 0 1 (fun k => 2 - k) s.mem.ar pc v
      ∧ (step s).mem.touched = printAccesses pc ++ (ownAccesses pc v ++ s.mem.touched)
      ∧ (breaks s = true →
          step s = ⟨swap 0 v.j s.mem, [.call 0 (v.j - 1), .call (v.j + 1) 1]⟩
            ∧ ExitContract 0 1 v.j (fun k => 2 - k) (swap 0 v.j s.mem).ar) :=
  partition_contract (by decide) _ _ (by decide)

end CPetQuicksort
