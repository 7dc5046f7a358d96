import CPet.IntArrayProofs
import Mathlib.Tactic.Linarith

/-! # `quicksort` as a machine, and its partition loop

    `quicksort0` recurses twice and its `while(true)` loop need not exit, so
    the program is modelled as a machine: a state is the memory around `ar`
    plus the stack of pending activations, and one step evaluates one guard of
    the source (with the loads it makes), performs one exchange, or enters or
    leaves one activation.  The program returns when the stack is empty.

    The loop invariant is `LoopInv`: everything left of `i` is below the
    pivot, everything right of `j` is above it, and `j ≥ i - 1`.  One step
    either stays in the loop under the invariant or breaks with the range
    partitioned (`Partitioned`). -/

namespace CPetQuicksort

open CPetSegment CPetRun CPetIntArray

/-! ## The machine -/

/-- `QS_ARRAY_LEN`: how many elements `swap` prints. -/
def qsArrayLen : Int := 10

/-- `swap(array, i, j)`, its debug print included. -/
def swap (i j : Int) (m : Mem) : Mem :=
  let (tmp, m) := load i m
  let (v, m) := load j m
  let m := store i v m
  let m := store j tmp m
  printArray qsArrayLen m

/-- Where an activation stands in its `while(true)` loop. -/
inductive Pc where
  /-- `for(; ar[i] < pivot && i < j; i++)` -/
  | scanI
  /-- `for(; ar[j] > pivot && i <= j; j--)` -/
  | scanJ
  /-- `if(i >= j) break; swap(ar, i, j);` -/
  | test
deriving DecidableEq, Repr

/-- The arguments and locals of one activation of `quicksort0`. -/
structure Locals where
  lo : Int
  hi : Int
  pivot : Int
  i : Int
  j : Int

/-- A pending activation: a call not yet entered, or a running loop. -/
inductive Frame where
  | call (lo hi : Int)
  | loop (pc : Pc) (v : Locals)

structure Machine where
  mem : Mem
  stack : List Frame

/-- One step of `quicksort0`, of the topmost activation. -/
def step : Machine → Machine
  | ⟨m, []⟩ => ⟨m, []⟩
  | ⟨m, .call lo hi :: rest⟩ =>
      if lo ≥ hi then ⟨m, rest⟩
      else
        let (pivot, m) := load lo m
        ⟨m, .loop .scanI ⟨lo, hi, pivot, lo + 1, hi⟩ :: rest⟩
  | ⟨m, .loop .scanI v :: rest⟩ =>
      let (x, m) := load v.i m
      if x < v.pivot ∧ v.i < v.j then
        ⟨m, .loop .scanI { v with i := v.i + 1 } :: rest⟩
      else ⟨m, .loop .scanJ v :: rest⟩
  | ⟨m, .loop .scanJ v :: rest⟩ =>
      let (x, m) := load v.j m
      if x > v.pivot ∧ v.i ≤ v.j then
        ⟨m, .loop .scanJ { v with j := v.j - 1 } :: rest⟩
      else ⟨m, .loop .test v :: rest⟩
  | ⟨m, .loop .test v :: rest⟩ =>
      if v.i ≥ v.j then
        -- `break`, the final exchange, and the two recursive calls
        ⟨swap v.lo v.j m, .call v.lo (v.j - 1) :: .call (v.j + 1) v.hi :: rest⟩
      else ⟨swap v.i v.j m, .loop .scanI v :: rest⟩

/-- `quicksort(ar, len)` about to run on memory `ar`. -/
def quicksort (ar : Int → Int) (len : Int) : Machine :=
  ⟨⟨ar, [], ""⟩, [.call 0 (len - 1)]⟩

/-- The program comes back to its caller. -/
def Returns (s : Machine) : Prop :=
  ∃ n : Nat, (step^[n] s).stack = []

/-! ## What one step does -/

/-- `swap` exchanges the two elements, whatever it prints. -/
theorem swap_ar (i j : Int) (m : Mem) : (swap i j m).ar = exchange m.ar i j :=
  printArray_ar _ _

/-- A range of at most one element returns at once, -/
theorem step_return {lo hi : Int} (h : hi ≤ lo) (m : Mem) (rest : List Frame) :
    step ⟨m, .call lo hi :: rest⟩ = ⟨m, rest⟩ := if_pos h

/-- and a longer one starts its loop, with the first element as the pivot. -/
theorem step_enter {lo hi : Int} (h : lo < hi) (m : Mem) (rest : List Frame) :
    step ⟨m, .call lo hi :: rest⟩
      = ⟨(load lo m).2,
          .loop .scanI ⟨lo, hi, m.ar lo, lo + 1, hi⟩ :: rest⟩ :=
  if_neg (not_le.mpr h)

theorem step_scanI_next {v : Locals} {m : Mem}
    (h : m.ar v.i < v.pivot ∧ v.i < v.j) (rest : List Frame) :
    step ⟨m, .loop .scanI v :: rest⟩
      = ⟨(load v.i m).2, .loop .scanI { v with i := v.i + 1 } :: rest⟩ :=
  if_pos h

theorem step_scanI_stop {v : Locals} {m : Mem}
    (h : ¬ (m.ar v.i < v.pivot ∧ v.i < v.j)) (rest : List Frame) :
    step ⟨m, .loop .scanI v :: rest⟩
      = ⟨(load v.i m).2, .loop .scanJ v :: rest⟩ := if_neg h

theorem step_scanJ_next {v : Locals} {m : Mem}
    (h : m.ar v.j > v.pivot ∧ v.i ≤ v.j) (rest : List Frame) :
    step ⟨m, .loop .scanJ v :: rest⟩
      = ⟨(load v.j m).2, .loop .scanJ { v with j := v.j - 1 } :: rest⟩ :=
  if_pos h

theorem step_scanJ_stop {v : Locals} {m : Mem}
    (h : ¬ (m.ar v.j > v.pivot ∧ v.i ≤ v.j)) (rest : List Frame) :
    step ⟨m, .loop .scanJ v :: rest⟩
      = ⟨(load v.j m).2, .loop .test v :: rest⟩ := if_neg h

/-- The `break` puts the pivot at `j` and leaves the two recursive calls. -/
theorem step_break {v : Locals} (h : v.j ≤ v.i) (m : Mem) (rest : List Frame) :
    step ⟨m, .loop .test v :: rest⟩
      = ⟨swap v.lo v.j m,
          .call v.lo (v.j - 1) :: .call (v.j + 1) v.hi :: rest⟩ := if_pos h

/-- An exchange moves neither `i` nor `j`. -/
theorem step_exchange {v : Locals} (h : v.i < v.j) (m : Mem)
    (rest : List Frame) :
    step ⟨m, .loop .test v :: rest⟩
      = ⟨swap v.i v.j m, .loop .scanI v :: rest⟩ := if_neg (not_le.mpr h)

/-- A halted machine stays halted. -/
theorem iterate_halted (m : Mem) (n : Nat) : step^[n] ⟨m, []⟩ = ⟨m, []⟩ :=
  Function.iterate_fixed rfl n

/-! ## One step of the loop -/

/-- A step that stays in the loop, outcome by outcome: memory, program point and
    locals before and after. -/
inductive LoopStep (m : Mem) (v : Locals) : Pc → Mem → Pc → Locals → Prop where
  | scanINext (h : m.ar v.i < v.pivot ∧ v.i < v.j) :
      LoopStep m v .scanI (load v.i m).2 .scanI { v with i := v.i + 1 }
  | scanIStop (h : ¬ (m.ar v.i < v.pivot ∧ v.i < v.j)) :
      LoopStep m v .scanI (load v.i m).2 .scanJ v
  | scanJNext (h : m.ar v.j > v.pivot ∧ v.i ≤ v.j) :
      LoopStep m v .scanJ (load v.j m).2 .scanJ { v with j := v.j - 1 }
  | scanJStop (h : ¬ (m.ar v.j > v.pivot ∧ v.i ≤ v.j)) :
      LoopStep m v .scanJ (load v.j m).2 .test v
  | exchange (h : v.i < v.j) : LoopStep m v .test (swap v.i v.j m) .scanI v

/-- **A STEP FROM INSIDE THE LOOP** stays there, or is the `break`. -/
theorem step_loop (m : Mem) (pc : Pc) (v : Locals) (rest : List Frame) :
    (∃ m' pc' v', LoopStep m v pc m' pc' v'
        ∧ step ⟨m, .loop pc v :: rest⟩ = ⟨m', .loop pc' v' :: rest⟩)
      ∨ (pc = .test ∧ v.j ≤ v.i) := by
  cases pc with
  | scanI =>
      by_cases hx : m.ar v.i < v.pivot ∧ v.i < v.j
      · exact Or.inl ⟨_, _, _, .scanINext hx, step_scanI_next hx rest⟩
      · exact Or.inl ⟨_, _, _, .scanIStop hx, step_scanI_stop hx rest⟩
  | scanJ =>
      by_cases hx : m.ar v.j > v.pivot ∧ v.i ≤ v.j
      · exact Or.inl ⟨_, _, _, .scanJNext hx, step_scanJ_next hx rest⟩
      · exact Or.inl ⟨_, _, _, .scanJStop hx, step_scanJ_stop hx rest⟩
  | test =>
      rcases lt_or_ge v.i v.j with hij | hij
      · exact Or.inl ⟨_, _, _, .exchange hij, step_exchange hij m rest⟩
      · exact Or.inr ⟨rfl, hij⟩

/-- The range and the pivot stay as they are. -/
theorem LoopStep.fixed {m m' : Mem} {pc pc' : Pc} {v v' : Locals}
    (h : LoopStep m v pc m' pc' v') : v'.lo = v.lo ∧ v'.hi = v.hi ∧ v'.pivot = v.pivot := by
  cases h <;> exact ⟨rfl, rfl, rfl⟩

/-! ## The loop invariant -/

/-- **THE PARTITION INVARIANT** at program point `pc`, over memory `ar`. -/
structure LoopInv (ar : Int → Int) (pc : Pc) (v : Locals) : Prop where
  lo_lt_i : v.lo + 1 ≤ v.i
  i_le_hi : v.i ≤ v.hi
  i_le_j : v.i - 1 ≤ v.j
  j_le_hi : v.j ≤ v.hi
  pivot : ar v.lo = v.pivot
  below : ∀ k, v.lo + 1 ≤ k → k < v.i → ar k < v.pivot
  above : ∀ k, v.j < k → k ≤ v.hi → v.pivot < ar k
  atScanI : pc = .scanI → v.i ≤ v.j
  stopI : pc ≠ .scanI → v.j ≤ v.i ∨ v.pivot ≤ ar v.i
  stopJ : pc = .test → v.j < v.i ∨ ar v.j ≤ v.pivot

/-- The invariant holds at the entry: nothing is classified yet. -/
theorem loopInv_enter {lo hi : Int} (h : lo < hi) (ar : Int → Int) :
    LoopInv ar .scanI ⟨lo, hi, ar lo, lo + 1, hi⟩ where
  lo_lt_i := le_refl _
  i_le_hi := h
  i_le_j := by show lo + 1 - 1 ≤ hi; omega
  j_le_hi := le_refl _
  pivot := rfl
  below := by
    intro k h₁ h₂
    have h₂' : k < lo + 1 := h₂
    have h₁' : lo + 1 ≤ k := h₁
    omega
  above := by
    intro k h₁ h₂
    exact absurd h₂ (not_le.mpr h₁)
  atScanI := fun _ => h
  stopI := fun hne => absurd rfl hne
  stopJ := nofun

/-- Advancing `i` keeps it, -/
theorem loopInv_scanI_next {ar : Int → Int} {v : Locals}
    (h : LoopInv ar .scanI v) (hx : ar v.i < v.pivot ∧ v.i < v.j) :
    LoopInv ar .scanI { v with i := v.i + 1 } := by
  have hlo := h.lo_lt_i
  have hhi := h.j_le_hi
  refine { h with
    lo_lt_i := ?_, i_le_hi := ?_, i_le_j := ?_, below := ?_, atScanI := ?_,
    stopI := fun hne => absurd rfl hne, stopJ := nofun }
  · show v.lo + 1 ≤ v.i + 1
    omega
  · show v.i + 1 ≤ v.hi
    omega
  · show v.i + 1 - 1 ≤ v.j
    omega
  · intro k h₁ h₂
    -- the element just passed joins the lower part
    rcases lt_or_eq_of_le (Int.lt_add_one_iff.mp h₂) with hlt | heq
    · exact h.below k h₁ hlt
    · rw [heq]
      exact hx.1
  · intro _
    show v.i + 1 ≤ v.j
    omega

/-- and so does leaving the first scan, -/
theorem loopInv_scanI_stop {ar : Int → Int} {v : Locals}
    (h : LoopInv ar .scanI v) (hx : ¬ (ar v.i < v.pivot ∧ v.i < v.j)) :
    LoopInv ar .scanJ v := by
  refine { h with atScanI := nofun, stopI := ?_, stopJ := nofun }
  intro _
  by_cases hij : v.i < v.j
  · exact Or.inr (not_lt.mp (fun hlt => hx ⟨hlt, hij⟩))
  · exact Or.inl (not_lt.mp hij)

/-- lowering `j`, -/
theorem loopInv_scanJ_next {ar : Int → Int} {v : Locals}
    (h : LoopInv ar .scanJ v) (hx : ar v.j > v.pivot ∧ v.i ≤ v.j) :
    LoopInv ar .scanJ { v with j := v.j - 1 } := by
  have hhi := h.j_le_hi
  refine { h with
    i_le_j := ?_, j_le_hi := ?_, above := ?_, atScanI := nofun,
    stopI := ?_, stopJ := nofun }
  · show v.i - 1 ≤ v.j - 1
    omega
  · show v.j - 1 ≤ v.hi
    omega
  · intro k h₁ h₂
    -- the element just passed joins the upper part
    rcases lt_or_eq_of_le (Int.sub_one_lt_iff.mp h₁) with hlt | heq
    · exact h.above k hlt h₂
    · rw [← heq]
      exact hx.1
  · intro hne
    rcases h.stopI hne with hle | hge
    · exact Or.inl (show v.j - 1 ≤ v.i by omega)
    · exact Or.inr hge

/-- and leaving the second scan. -/
theorem loopInv_scanJ_stop {ar : Int → Int} {v : Locals}
    (h : LoopInv ar .scanJ v) (hx : ¬ (ar v.j > v.pivot ∧ v.i ≤ v.j)) :
    LoopInv ar .test v := by
  refine { h with atScanI := nofun, stopI := fun _ => h.stopI nofun, stopJ := ?_ }
  intro _
  by_cases hij : v.i ≤ v.j
  · exact Or.inr (not_lt.mp (fun hlt => hx ⟨hlt, hij⟩))
  · exact Or.inl (not_le.mp hij)

/-- The exchange touches neither the pivot nor the classified parts. -/
theorem loopInv_exchange {ar : Int → Int} {v : Locals}
    (h : LoopInv ar .test v) (hij : v.i < v.j) :
    LoopInv (exchange ar v.i v.j) .scanI v := by
  have hlo := h.lo_lt_i
  have hfix : ∀ k, k < v.i ∨ v.j < k → exchange ar v.i v.j k = ar k := by
    intro k hk
    exact exchange_of_ne ar (by omega) (by omega)
  refine { h with
    pivot := ?_, below := ?_, above := ?_, atScanI := fun _ => le_of_lt hij,
    stopI := fun hne => absurd rfl hne, stopJ := nofun }
  · rw [hfix v.lo (Or.inl (by omega))]
    exact h.pivot
  · intro k h₁ h₂
    rw [hfix k (Or.inl h₂)]
    exact h.below k h₁ h₂
  · intro k h₁ h₂
    rw [hfix k (Or.inr h₁)]
    exact h.above k h₁ h₂

/-- **THE INVARIANT IS KEPT** by every step that stays in the loop. -/
theorem LoopStep.loopInv {m m' : Mem} {pc pc' : Pc} {v v' : Locals}
    (h : LoopStep m v pc m' pc' v') (hinv : LoopInv m.ar pc v) : LoopInv m'.ar pc' v' := by
  cases h with
  | scanINext hx => exact loopInv_scanI_next hinv hx
  | scanIStop hx => exact loopInv_scanI_stop hinv hx
  | scanJNext hx => exact loopInv_scanJ_next hinv hx
  | scanJStop hx => exact loopInv_scanJ_stop hinv hx
  | exchange hij =>
      rw [swap_ar]
      exact loopInv_exchange hinv hij

/-- Only elements past the first of the range move. -/
theorem LoopStep.rearranged {m m' : Mem} {pc pc' : Pc} {v v' : Locals}
    (h : LoopStep m v pc m' pc' v') (hinv : LoopInv m.ar pc v) :
    Rearranged (v.lo + 1) v.hi m.ar m'.ar := by
  cases h with
  | exchange hij =>
      have hlo := hinv.lo_lt_i
      have hhi := hinv.j_le_hi
      rw [swap_ar]
      exact rearranged_exchange m.ar (by omega) (by omega) (by omega) (by omega)
  | _ => exact Rearranged.refl _ _ _

/-! ## The loop of one activation

    `InLoop a lo hi rest s`: the machine `s` is inside the partition loop of
    the activation `quicksort0(ar, lo, hi)` that was entered on memory `a`,
    with `rest` still pending below it. -/

structure InLoop (a : Int → Int) (lo hi : Int) (rest : List Frame)
    (pc : Pc) (v : Locals) (s : Machine) : Prop where
  stack : s.stack = .loop pc v :: rest
  inv : LoopInv s.mem.ar pc v
  lo_eq : v.lo = lo
  hi_eq : v.hi = hi
  pivot_eq : v.pivot = a lo
  rearranged : Rearranged (lo + 1) hi a s.mem.ar

/-- Entering a range of at least two elements starts its loop. -/
theorem inLoop_enter {lo hi : Int} (h : lo < hi) (m : Mem) (rest : List Frame) :
    InLoop m.ar lo hi rest .scanI ⟨lo, hi, m.ar lo, lo + 1, hi⟩
      (step ⟨m, .call lo hi :: rest⟩) := by
  rw [step_enter h]
  exact ⟨rfl, loopInv_enter h m.ar, rfl, rfl, rfl, Rearranged.refl _ _ _⟩

/-- **ONE STEP OF THE LOOP** either stays in it or is the `break`. -/
theorem inLoop_step {a : Int → Int} {lo hi : Int} {rest : List Frame}
    {pc : Pc} {v : Locals} {s : Machine} (h : InLoop a lo hi rest pc v s) :
    (∃ pc' v', InLoop a lo hi rest pc' v' (step s))
      ∨ (pc = .test ∧ v.j ≤ v.i) := by
  obtain ⟨m, stack⟩ := s
  obtain ⟨hstack, hinv, hlo, hhi, hpivot, hre⟩ := h
  have hstack' : stack = .loop pc v :: rest := hstack
  subst hstack' hlo hhi
  rcases step_loop m pc v rest with ⟨m', pc', v', hmove, hstep⟩ | hbreak
  · obtain ⟨hlo', hhi', hpivot'⟩ := hmove.fixed
    refine Or.inl ⟨pc', v', ?_⟩
    rw [hstep]
    exact ⟨rfl, hmove.loopInv hinv, hlo', hhi', hpivot'.trans hpivot,
      hre.trans (hmove.rearranged hinv)⟩
  · exact Or.inr hbreak

/-- A run from inside the loop stays inside until it meets the `break`. -/
theorem inLoop_run {a : Int → Int} {lo hi : Int} {rest : List Frame} :
    ∀ (n : Nat) (s : Machine), (∃ pc v, InLoop a lo hi rest pc v s) →
      (∃ pc v, InLoop a lo hi rest pc v (step^[n] s))
        ∨ ∃ p v, p < n ∧ InLoop a lo hi rest .test v (step^[p] s) ∧ v.j ≤ v.i := by
  intro n
  induction n with
  | zero => intro s h; exact Or.inl h
  | succ n ih =>
      intro s h
      obtain ⟨pc, v, hin⟩ := h
      rcases inLoop_step hin with hstay | ⟨hpc, hij⟩
      · rcases ih (step s) hstay with hend | ⟨p, w, hp, hexit, hw⟩
        · exact Or.inl hend
        · exact Or.inr ⟨p + 1, w, Nat.succ_lt_succ hp, hexit, hw⟩
      · subst hpc
        exact Or.inr ⟨0, v, Nat.succ_pos n, hin, hij⟩

/-! ## What the `break` leaves behind -/

/-- `b` is `a` partitioned on `[lo, hi]`, with the pivot `a lo` at `j`. -/
structure Partitioned (lo hi j : Int) (a b : Int → Int) : Prop where
  lo_le_j : lo ≤ j
  j_le_hi : j ≤ hi
  pivot : b j = a lo
  first : b lo ≤ b j
  below : ∀ k, lo < k → k < j → b k < b j
  above : ∀ k, j < k → k ≤ hi → b j < b k
  rearranged : Rearranged lo hi a b

/-- Left of the pivot nothing is above it. -/
theorem Partitioned.le_pivot {lo hi j : Int} {a b : Int → Int}
    (h : Partitioned lo hi j a b) : ∀ k, lo ≤ k → k ≤ j - 1 → b k ≤ b j := by
  intro k h₁ h₂
  rcases lt_or_eq_of_le h₁ with hlt | heq
  · exact le_of_lt (h.below k hlt (by omega))
  · rw [← heq]
    exact h.first

/-- **THE BREAK PARTITIONS**: at the exit test with `j ≤ i`, the final
    exchange puts the pivot between the two parts. -/
theorem partitioned_of_exit {ar : Int → Int} {v : Locals}
    (h : LoopInv ar .test v) (hij : v.j ≤ v.i) :
    Partitioned v.lo v.hi v.j ar (exchange ar v.lo v.j) := by
  have hlo := h.lo_lt_i
  have hi := h.i_le_j
  have hhi := h.j_le_hi
  have hj : exchange ar v.lo v.j v.j = v.pivot := by
    rw [exchange_right, h.pivot]
  have hrest : ∀ k, k ≠ v.lo → k ≠ v.j → exchange ar v.lo v.j k = ar k :=
    fun k h₁ h₂ => exchange_of_ne ar h₁ h₂
  refine ⟨by omega, hhi, ?_, ?_, ?_, ?_, ?_⟩
  · rw [exchange_right]
  · -- the element sent to `lo` is the pivot itself, or passed one of the scans
    rw [hj, exchange_left]
    rcases lt_trichotomy v.j v.lo with hlt | heq | hgt
    · omega
    · rw [heq, h.pivot]
    · rcases h.stopJ rfl with hlt | hle
      · exact le_of_lt (h.below v.j (by omega) hlt)
      · exact hle
  · intro k h₁ h₂
    rw [hj, hrest k (by omega) (by omega)]
    exact h.below k (by omega) (by omega)
  · intro k h₁ h₂
    rw [hj, hrest k (by omega) (by omega)]
    exact h.above k h₁ h₂
  · exact rearranged_exchange ar (le_refl _) (by omega) (by omega) hhi

/-- The step that breaks out of the loop pushes the two recursive calls on
    the partitioned memory. -/
theorem step_of_exit {a : Int → Int} {lo hi : Int} {rest : List Frame}
    {v : Locals} {s : Machine} (h : InLoop a lo hi rest .test v s)
    (hij : v.j ≤ v.i) :
    step s = ⟨swap lo v.j s.mem, .call lo (v.j - 1) :: .call (v.j + 1) hi :: rest⟩
      ∧ Partitioned lo hi v.j a (swap lo v.j s.mem).ar := by
  obtain ⟨m, stack⟩ := s
  obtain ⟨hstack, hinv, hlo, hhi, hpivot, hre⟩ := h
  have hstack' : stack = .loop .test v :: rest := hstack
  subst hstack' hlo hhi
  refine ⟨step_break hij m rest, ?_⟩
  have hpart := partitioned_of_exit hinv hij
  rw [swap_ar]
  refine { hpart with pivot := ?_, rearranged := ?_ }
  · rw [exchange_right, hinv.pivot, hpivot]
  · exact (hre.mono (by omega) (le_refl _)).trans hpart.rearranged

/-- **PARTITIONED ON THE WAY**: a machine that halts from a call on at least two
    elements first reaches the two recursive calls, on partitioned memory. -/
theorem partition_of_halts {lo hi : Int} (hlt : lo < hi) {n : Nat} {m : Mem}
    {rest : List Frame}
    (hn : (step^[n] ⟨m, .call lo hi :: rest⟩).stack = []) :
    ∃ p j m', p < n
      ∧ step^[p + 1] ⟨m, .call lo hi :: rest⟩
        = ⟨m', .call lo (j - 1) :: .call (j + 1) hi :: rest⟩
      ∧ Partitioned lo hi j m.ar m'.ar := by
  cases n with
  | zero => exact nomatch hn
  | succ n =>
      rcases inLoop_run n _ ⟨_, _, inLoop_enter hlt m rest⟩ with hend | hexit
      · -- a halted machine is in no loop
        obtain ⟨pc, v, hin⟩ := hend
        have hstack : (step^[n] (step ⟨m, .call lo hi :: rest⟩)).stack
            = .loop pc v :: rest := hin.stack
        rw [Function.iterate_succ_apply, hstack] at hn
        exact nomatch hn
      · obtain ⟨p, v, hp, hin, hij⟩ := hexit
        obtain ⟨hstep, hpart⟩ := step_of_exit hin hij
        refine ⟨p + 1, v.j, _, Nat.succ_lt_succ hp, ?_, hpart⟩
        rw [Function.iterate_succ_apply']
        exact hstep

end CPetQuicksort
