import CPet.QuicksortSortProofs

/-! # What copies of one value do to `quicksort`

    The partition loop swaps `ar[i]` and `ar[j]` without moving `i` or `j`.
    Progress therefore comes from the exchanged values: unless both equal the
    pivot, one of the scans moves next.  `loopRank` makes that a number that
    decreases at every step; conversely all copies of the pivot stay inside
    `[i, j]`, so two copies keep `i < j` forever.

    Copies of one value never end up on different sides of another pivot, so
    three of them stay together until one of them is the pivot. -/

namespace CPetQuicksort

open CPetSegment CPetRun CPetIntArray

/-! ## Two copies of the pivot keep the loop running -/

/-- At the exit test with `j ≤ i`, at most one copy of the pivot is left
    besides `ar[lo]`. -/
theorem copies_of_exit {ar : Int → Int} {v : Locals}
    (h : LoopInv ar .test v) (hij : v.j ≤ v.i) :
    copies ar v.pivot (v.lo + 1) v.hi ≤ 1 := by
  have hcard : ({v.i} : Finset Int).card = 1 := rfl
  rw [← hcard]
  refine copies_le_card {v.i} ?_
  intro k h₁ h₂ hk
  rw [Finset.mem_singleton]
  rcases lt_trichotomy k v.i with hlt | heq | hgt
  · exact absurd hk (ne_of_lt (h.below k h₁ hlt))
  · exact heq
  · exact absurd hk.symm (ne_of_lt (h.above k (by omega) h₂))

/-- Copies of the pivot when the `break` is met are copies at the entry. -/
theorem copies_of_inLoop_exit {a : Int → Int} {lo hi : Int}
    {rest : List Frame} {v : Locals} {s : Machine}
    (h : InLoop a lo hi rest .test v s) (hij : v.j ≤ v.i) :
    copies a (a lo) (lo + 1) hi ≤ 1 := by
  have hc := copies_of_exit h.inv hij
  rw [h.pivot_eq, h.lo_eq, h.hi_eq, h.rearranged.copies_eq] at hc
  exact hc

/-! ## One copy of the pivot makes the loop exit -/

/-- The scans will move before the next exit test. -/
def ScanMoves (ar : Int → Int) (v : Locals) : Prop :=
  (ar v.i < v.pivot ∧ v.i < v.j) ∨ (v.pivot < ar v.j ∧ v.i ≤ v.j)

instance (ar : Int → Int) (v : Locals) : Decidable (ScanMoves ar v) :=
  inferInstanceAs (Decidable (_ ∨ _))

/-- The width of `[i, j]`. -/
def width (v : Locals) : Nat := (v.j - v.i + 1).toNat

/-- **THE RANKING FUNCTION** of the partition loop: four times the width,
    plus the scans still to run, less a credit when a scan is due to move. -/
def loopRank (ar : Int → Int) : Pc → Locals → Nat
  | .scanI, v => 4 * width v + 2 - (if ScanMoves ar v then 3 else 0)
  | .scanJ, v =>
      4 * width v + 1 - (if v.pivot < ar v.j ∧ v.i ≤ v.j then 3 else 0)
  | .test, v => 4 * width v

/-- The rank of a machine is the rank of its topmost loop. -/
def rank (s : Machine) : Nat :=
  match s.stack with
  | .loop pc v :: _ => loopRank s.mem.ar pc v
  | _ => 0

theorem rank_inLoop {a : Int → Int} {lo hi : Int} {rest : List Frame}
    {pc : Pc} {v : Locals} {s : Machine} (h : InLoop a lo hi rest pc v s) :
    rank s = loopRank s.mem.ar pc v := by
  unfold rank
  rw [h.stack]

/-- Advancing `i` costs a unit of width, more than the credit it had. -/
theorem loopRank_scanI_next {ar : Int → Int} {v : Locals}
    (hx : ar v.i < v.pivot ∧ v.i < v.j) :
    loopRank ar .scanI { v with i := v.i + 1 } < loopRank ar .scanI v := by
  have hw : width { v with i := v.i + 1 } + 1 = width v := by
    show (v.j - (v.i + 1) + 1).toNat + 1 = (v.j - v.i + 1).toNat
    omega
  have hmoves : ScanMoves ar v := Or.inl hx
  simp only [loopRank, if_pos hmoves]
  omega

/-- Leaving the first scan decreases the rank, -/
theorem loopRank_scanI_stop {ar : Int → Int} {v : Locals}
    (hij : v.i ≤ v.j) (hx : ¬ (ar v.i < v.pivot ∧ v.i < v.j)) :
    loopRank ar .scanJ v < loopRank ar .scanI v := by
  have hw : 1 ≤ width v := by
    show 1 ≤ (v.j - v.i + 1).toNat
    omega
  have hmoves : ScanMoves ar v ↔ v.pivot < ar v.j ∧ v.i ≤ v.j :=
    ⟨fun h => h.resolve_left hx, Or.inr⟩
  simp only [loopRank, hmoves]
  split <;> omega

/-- lowering `j` does, -/
theorem loopRank_scanJ_next {ar : Int → Int} {v : Locals}
    (hx : ar v.j > v.pivot ∧ v.i ≤ v.j) :
    loopRank ar .scanJ { v with j := v.j - 1 } < loopRank ar .scanJ v := by
  have hw : width { v with j := v.j - 1 } + 1 = width v := by
    show (v.j - 1 - v.i + 1).toNat + 1 = (v.j - v.i + 1).toNat
    omega
  have hmoves : v.pivot < ar v.j ∧ v.i ≤ v.j := hx
  simp only [loopRank, if_pos hmoves]
  omega

/-- and so does leaving the second scan. -/
theorem loopRank_scanJ_stop {ar : Int → Int} {v : Locals}
    (hx : ¬ (ar v.j > v.pivot ∧ v.i ≤ v.j)) :
    loopRank ar .test v < loopRank ar .scanJ v := by
  have hmoves : ¬ (v.pivot < ar v.j ∧ v.i ≤ v.j) := hx
  simp only [loopRank, if_neg hmoves]
  omega

/-- **PROGRESS OF THE EXCHANGE**: with at most one further copy of the pivot,
    one of the exchanged values makes a scan move. -/
theorem loopRank_exchange {ar : Int → Int} {v : Locals}
    (h : LoopInv ar .test v) (hij : v.i < v.j)
    (hone : copies ar v.pivot (v.lo + 1) v.hi ≤ 1) :
    loopRank (exchange ar v.i v.j) .scanI v < loopRank ar .test v := by
  have hlo := h.lo_lt_i
  have hhi := h.j_le_hi
  have hi : v.pivot ≤ ar v.i := (h.stopI nofun).resolve_left (not_le.mpr hij)
  have hj : ar v.j ≤ v.pivot := (h.stopJ rfl).resolve_left (not_lt.mpr (le_of_lt hij))
  have hne : ¬ (ar v.i = v.pivot ∧ ar v.j = v.pivot) := by
    rintro ⟨hpi, hpj⟩
    -- two equal values at two offsets would be two further copies
    have htwo : ({v.i, v.j} : Finset Int).card = 2 :=
      Finset.card_pair (ne_of_lt hij)
    have hle : ({v.i, v.j} : Finset Int).card
        ≤ copies ar v.pivot (v.lo + 1) v.hi := by
      refine card_le_copies {v.i, v.j} ?_
      intro k hk
      rcases Finset.mem_insert.mp hk with hk | hk
      · exact ⟨⟨by omega, by omega⟩, hk ▸ hpi⟩
      · have hk' := Finset.mem_singleton.mp hk
        exact ⟨⟨by omega, by omega⟩, hk' ▸ hpj⟩
    omega
  have hmoves : ScanMoves (exchange ar v.i v.j) v := by
    -- the value above the pivot goes to `j`, or the one below it to `i`
    rcases lt_or_eq_of_le hi with hlt | heq
    · refine Or.inr ⟨?_, le_of_lt hij⟩
      rw [exchange_right]
      exact hlt
    · refine Or.inl ⟨?_, hij⟩
      rw [exchange_left]
      exact lt_of_le_of_ne hj (fun hpj => hne ⟨heq.symm, hpj⟩)
  have hw : 1 ≤ width v := by
    show 1 ≤ (v.j - v.i + 1).toNat
    omega
  simp only [loopRank, if_pos hmoves]
  omega

/-- **THE RANK DECREASES** at every step that stays in the loop: always in a
    scan, and at the exit test when at most one further copy is left. -/
theorem LoopStep.rank_lt {m m' : Mem} {pc pc' : Pc} {v v' : Locals}
    (h : LoopStep m v pc m' pc' v') (hinv : LoopInv m.ar pc v)
    (hone : pc = .test → copies m.ar v.pivot (v.lo + 1) v.hi ≤ 1) :
    loopRank m'.ar pc' v' < loopRank m.ar pc v := by
  cases h with
  | scanINext hx => exact loopRank_scanI_next hx
  | scanIStop hx => exact loopRank_scanI_stop (hinv.atScanI rfl) hx
  | scanJNext hx => exact loopRank_scanJ_next hx
  | scanJStop hx => exact loopRank_scanJ_stop hx
  | exchange hij =>
      rw [swap_ar]
      exact loopRank_exchange hinv hij (hone rfl)

/-- **ONE STEP** that stays in the loop decreases the rank of the machine. -/
theorem rank_step {a : Int → Int} {lo hi : Int} {rest : List Frame}
    {pc : Pc} {v : Locals} {s : Machine} (h : InLoop a lo hi rest pc v s)
    (hstay : pc = .test → v.i < v.j)
    (hone : pc = .test → copies a (a lo) (lo + 1) hi ≤ 1) :
    rank (step s) < rank s := by
  rw [rank_inLoop h]
  obtain ⟨m, stack⟩ := s
  obtain ⟨hstack, hinv, hlo, hhi, hpivot, hre⟩ := h
  have hstack' : stack = .loop pc v :: rest := hstack
  subst hstack'
  rcases step_loop m pc v rest with ⟨m', pc', v', hmove, hstep⟩ | ⟨hpc, hij⟩
  · rw [hstep]
    refine hmove.rank_lt hinv ?_
    intro hpc
    rw [hpivot, hlo, hhi, hre.copies_eq]
    exact hone hpc
  · exact absurd hij (not_le.mpr (hstay hpc))

/-- **PROGRESS**: with at most one further copy of the pivot, a step that does not break
    stays in the loop and decreases the rank. -/
theorem inLoop_progress {a : Int → Int} {lo hi : Int} {rest : List Frame}
    (hone : copies a (a lo) (lo + 1) hi ≤ 1) (s : Machine)
    (hs : ∃ pc v, InLoop a lo hi rest pc v s)
    (hgoal : ¬ ∃ v, InLoop a lo hi rest .test v s ∧ v.j ≤ v.i) :
    (∃ pc v, InLoop a lo hi rest pc v (step s)) ∧ rank (step s) < rank s := by
  obtain ⟨pc, v, hin⟩ := hs
  have hstay : pc = .test → v.i < v.j := by
    rintro rfl
    exact not_le.mp (fun hij => hgoal ⟨v, hin, hij⟩)
  rcases inLoop_step hin with hnext | ⟨hpc, hij⟩
  · exact ⟨hnext, rank_step hin hstay (fun _ => hone)⟩
  · exact absurd hij (not_le.mpr (hstay hpc))

/-! ## Copies follow one side of a partition -/

/-- A partition moves no copy out of the range. -/
theorem copies_partitioned {lo hi j : Int} {a b : Int → Int}
    (h : Partitioned lo hi j a b) (v : Int) :
    copies b v lo hi = copies a v lo hi :=
  h.rearranged.copies_eq v

/-- The pivot itself occurs at most twice in a partitioned range. -/
theorem copies_pivot_le {lo hi j : Int} {a b : Int → Int}
    (h : Partitioned lo hi j a b) : copies b (b j) lo hi ≤ 2 := by
  have hcard : ({lo, j} : Finset Int).card ≤ 2 := Finset.card_le_two
  refine le_trans (copies_le_card {lo, j} ?_) hcard
  intro k h₁ h₂ hk
  rw [Finset.mem_insert, Finset.mem_singleton]
  rcases lt_trichotomy k j with hlt | heq | hgt
  · rcases lt_or_eq_of_le h₁ with hlo | hlo
    · exact absurd hk (ne_of_lt (h.below k hlo hlt))
    · exact Or.inl hlo.symm
  · exact Or.inr heq
  · exact absurd hk.symm (ne_of_lt (h.above k hgt h₂))

/-- Values below the pivot have all their copies on its left. -/
theorem copies_left {lo hi j : Int} {a b : Int → Int}
    (h : Partitioned lo hi j a b) {v : Int} (hv : v < b j) :
    copies b v lo hi ≤ copies b v lo (j - 1) := by
  refine copies_le_of_forall ?_
  intro k h₁ h₂ hk
  refine ⟨h₁, ?_⟩
  rcases lt_trichotomy k j with hlt | heq | hgt
  · omega
  · rw [heq] at hk
    omega
  · have := h.above k hgt h₂
    omega

/-- Values above the pivot have all their copies on its right. -/
theorem copies_right {lo hi j : Int} {a b : Int → Int}
    (h : Partitioned lo hi j a b) {v : Int} (hv : b j < v) :
    copies b v lo hi ≤ copies b v (j + 1) hi := by
  refine copies_le_of_forall ?_
  intro k h₁ h₂ hk
  refine ⟨?_, h₂⟩
  rcases lt_trichotomy k j with hlt | heq | hgt
  · have := h.le_pivot k h₁ (by omega)
    omega
  · rw [heq] at hk
    omega
  · omega

/-- **THREE COPIES DIVERGE**: a machine with a value three times in the range
    of its topmost call never halts. -/
theorem call_diverges :
    ∀ (n : Nat) (lo hi : Int) (m : Mem) (rest : List Frame) (v : Int),
      3 ≤ copies m.ar v lo hi →
      (step^[n] ⟨m, .call lo hi :: rest⟩).stack ≠ [] := by
  intro n
  induction n using Nat.strongRecOn with
  | ind n ih =>
      intro lo hi m rest v hv hn
      -- a range of one element has no three copies
      have hlt : lo < hi := by
        by_contra hge
        have hle : copies m.ar v lo hi ≤ ({lo} : Finset Int).card := by
          refine copies_le_card {lo} ?_
          intro k h₁ h₂ _
          rw [Finset.mem_singleton]
          omega
        rw [Finset.card_singleton] at hle
        omega
      obtain ⟨p, j, m₁, hp, hrun, hpart⟩ := partition_of_halts hlt hn
      have hn₁ := halts_rest hp hrun hn
      have hv₁ : 3 ≤ copies m₁.ar v lo hi := by
        rw [copies_partitioned hpart]
        exact hv
      rcases lt_trichotomy v (m₁.ar j) with hvl | hvp | hvr
      · exact ih _ (by omega) _ _ _ _ v (le_trans hv₁ (copies_left hpart hvl)) hn₁
      · have := copies_pivot_le hpart
        rw [hvp] at hv₁
        omega
      · -- the left call returns first and leaves the right part alone
        obtain ⟨q, m₂, hq, hqn, hrun₂, hl⟩ := call_of_halts _ _ _ _ _ hn₁
        have hn₂ := halts_rest hqn hrun₂ hn₁
        have hsame : copies m₂.ar v (j + 1) hi = copies m₁.ar v (j + 1) hi :=
          copies_congr (fun k _ _ => hl.rearranged.outside (by omega)) v
        have hv₂ : 3 ≤ copies m₂.ar v (j + 1) hi := by
          rw [hsame]
          exact le_trans hv₁ (copies_right hpart hvr)
        exact ih _ (by omega) _ _ _ _ v hv₂ hn₂

end CPetQuicksort
