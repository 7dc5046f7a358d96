import CPet.QuicksortPartitionProofs
import CPet.QuicksortTerminationProofs

/-! # Which elements a `quicksort` run touches

    The scans dereference before they test their index guard, and `j` may end
    at `i - 1`; the frames of every reachable machine still keep all of it
    inside the caller's range.  What leaves the range is the debug print in
    `swap`, which always reads `QS_ARRAY_LEN` elements. -/

namespace CPetQuicksort

open CPetSegment CPetRun CPetIntArray

/-- The indices of a pending activation stay inside `[0, len)`. -/
def FrameIn (len : Int) : Frame → Prop
  | .call lo hi => 0 ≤ lo ∧ hi < len
  | .loop pc v => (0 ≤ v.lo ∧ v.hi < len) ∧ (v.lo + 1 ≤ v.i ∧ v.i ≤ v.hi)
      ∧ (v.i - 1 ≤ v.j ∧ v.j ≤ v.hi) ∧ (pc = .scanI → v.i ≤ v.j)

/-- **THE BOUNDS INVARIANT**: all frames inside the range, and every offset
    accessed so far inside it or read by a debug print. -/
structure Bounded (len : Int) (s : Machine) : Prop where
  frames : ∀ f ∈ s.stack, FrameIn len f
  touched : ∀ k ∈ s.mem.touched, 0 ≤ k ∧ (k < len ∨ k < qsArrayLen)

theorem bounded_quicksort (ar : Int → Int) (len : Nat) :
    Bounded len (quicksort ar len) := by
  constructor
  · intro f hf
    rw [List.mem_singleton.mp hf]
    exact ⟨le_refl _, by omega⟩
  · intro k hk
    exact nomatch hk

/-- Loading inside the range keeps the log inside it. -/
theorem touched_load {len k : Int} {m : Mem} (hk : 0 ≤ k ∧ k < len)
    (h : ∀ k ∈ m.touched, 0 ≤ k ∧ (k < len ∨ k < qsArrayLen)) :
    ∀ l ∈ (load k m).2.touched, 0 ≤ l ∧ (l < len ∨ l < qsArrayLen) := by
  intro l hl
  rcases List.mem_cons.mp hl with heq | hmem
  · rw [heq]
    exact ⟨hk.1, Or.inl hk.2⟩
  · exact h l hmem

/-- Replacing the topmost frame keeps the frames in range. -/
theorem frames_replace {len : Int} {f g : Frame} {rest : List Frame}
    (hg : FrameIn len g) (h : ∀ f' ∈ f :: rest, FrameIn len f') :
    ∀ f' ∈ g :: rest, FrameIn len f' := by
  intro f' hf'
  rcases List.mem_cons.mp hf' with heq | hmem
  · rw [heq]
    exact hg
  · exact h f' (List.mem_cons_of_mem _ hmem)

section Step

variable {len : Int} {m m' : Mem} {pc pc' : Pc} {v v' : Locals} {rest : List Frame}

theorem bounded_call {lo hi : Int} (h : Bounded len ⟨m, .call lo hi :: rest⟩) :
    Bounded len (step ⟨m, .call lo hi :: rest⟩) := by
  obtain ⟨hframes, htouched⟩ := h
  obtain ⟨hlo, hhi⟩ : FrameIn len (.call lo hi) := hframes _ List.mem_cons_self
  rcases le_or_gt hi lo with hle | hlt
  · rw [step_return hle]
    exact ⟨fun f hf => hframes f (List.mem_cons_of_mem _ hf), htouched⟩
  · rw [step_enter hlt]
    refine ⟨frames_replace ?_ hframes, touched_load ⟨hlo, by omega⟩ htouched⟩
    refine ⟨⟨hlo, hhi⟩, ⟨le_refl _, hlt⟩, ⟨?_, le_refl _⟩, fun _ => hlt⟩
    show lo + 1 - 1 ≤ hi
    omega

/-- The scans keep the indices in the range; `j` may come to `i - 1`. -/
theorem LoopStep.frameIn (h : LoopStep m v pc m' pc' v') (hin : FrameIn len (.loop pc v)) :
    FrameIn len (.loop pc' v') := by
  obtain ⟨⟨hlo, hhi⟩, ⟨hi₁, hi₂⟩, ⟨hj₁, hj₂⟩, -⟩ := hin
  cases h with
  | scanINext hx =>
      obtain ⟨-, hlt⟩ := hx
      refine ⟨⟨hlo, hhi⟩, ⟨?_, ?_⟩, ⟨?_, hj₂⟩, fun _ => ?_⟩
      · show v.lo + 1 ≤ v.i + 1
        omega
      · show v.i + 1 ≤ v.hi
        omega
      · show v.i + 1 - 1 ≤ v.j
        omega
      · show v.i + 1 ≤ v.j
        omega
  | scanIStop _ => exact ⟨⟨hlo, hhi⟩, ⟨hi₁, hi₂⟩, ⟨hj₁, hj₂⟩, nofun⟩
  | scanJNext hx =>
      obtain ⟨-, hle⟩ := hx
      refine ⟨⟨hlo, hhi⟩, ⟨hi₁, hi₂⟩, ⟨?_, ?_⟩, nofun⟩
      · show v.i - 1 ≤ v.j - 1
        omega
      · show v.j - 1 ≤ v.hi
        omega
  | scanJStop _ => exact ⟨⟨hlo, hhi⟩, ⟨hi₁, hi₂⟩, ⟨hj₁, hj₂⟩, nofun⟩
  | exchange hlt => exact ⟨⟨hlo, hhi⟩, ⟨hi₁, hi₂⟩, ⟨hj₁, hj₂⟩, fun _ => le_of_lt hlt⟩

/-- A step of the loop touches the range and what the debug print reads. -/
theorem touched_step (hin : FrameIn len (.loop pc v))
    (h : ∀ k ∈ m.touched, 0 ≤ k ∧ (k < len ∨ k < qsArrayLen)) :
    ∀ k ∈ (step ⟨m, .loop pc v :: rest⟩).mem.touched, 0 ≤ k ∧ (k < len ∨ k < qsArrayLen) := by
  obtain ⟨⟨hlo, hhi⟩, hi, hj, -⟩ := hin
  intro k hk
  rw [step_touched rfl] at hk
  rcases List.mem_append.mp hk with hprint | hrest
  · obtain ⟨h₁, h₂⟩ := printAccesses_inside hprint
    exact ⟨h₁, Or.inr h₂⟩
  · rcases List.mem_append.mp hrest with hown | hold
    · obtain ⟨h₁, h₂⟩ := ownAccesses_inside hi hj k hown
      exact ⟨by omega, Or.inl (by omega)⟩
    · exact h k hold

theorem bounded_loop (h : Bounded len ⟨m, .loop pc v :: rest⟩) :
    Bounded len (step ⟨m, .loop pc v :: rest⟩) := by
  obtain ⟨hframes, htouched⟩ := h
  have hin : FrameIn len (.loop pc v) := hframes _ List.mem_cons_self
  refine ⟨?_, touched_step hin htouched⟩
  rcases step_loop m pc v rest with ⟨m', pc', v', hmove, hstep⟩ | ⟨rfl, hij⟩
  · rw [hstep]
    exact frames_replace (hmove.frameIn hin) hframes
  · -- the break: both recursive calls get ranges inside this one
    obtain ⟨⟨hlo, hhi⟩, ⟨hi₁, hi₂⟩, ⟨hj₁, hj₂⟩, -⟩ := hin
    rw [step_break hij]
    intro f hf
    rcases List.mem_cons.mp hf with heq | hrest
    · rw [heq]
      exact ⟨hlo, by omega⟩
    · refine frames_replace ?_ hframes f hrest
      exact ⟨by omega, hhi⟩

end Step

/-- **ONE STEP** keeps the frames in range and accesses only elements of the
    range or of the debug print. -/
theorem bounded_step {len : Int} (s : Machine) (h : Bounded len s) :
    Bounded len (step s) := by
  obtain ⟨m, stack⟩ := s
  cases stack with
  | nil => exact h
  | cons f rest =>
      cases f with
      | call lo hi => exact bounded_call h
      | loop pc v => exact bounded_loop h

theorem bounded_run (ar : Int → Int) (len n : Nat) :
    Bounded len (step^[n] (quicksort ar len)) :=
  iterate_invariant bounded_step n _ (bounded_quicksort ar len)

/-! ## Every call on two elements prints -/

/-- From inside a loop the exit test is reached, whatever the values. -/
theorem test_reached {a : Int → Int} {lo hi : Int} {rest : List Frame}
    (s : Machine) (hs : ∃ pc v, InLoop a lo hi rest pc v s) :
    ∃ t v, Reaches step s t ∧ InLoop a lo hi rest .test v t := by
  have hdec : ∀ s, (∃ pc v, InLoop a lo hi rest pc v s) →
      ¬ (∃ v, InLoop a lo hi rest .test v s) →
      (∃ pc v, InLoop a lo hi rest pc v (step s)) ∧ rank (step s) < rank s := by
    intro s hs hgoal
    obtain ⟨pc, v, hin⟩ := hs
    have hpc : pc ≠ .test := by
      rintro rfl
      exact hgoal ⟨v, hin⟩
    rcases inLoop_step hin with hnext | ⟨htest, -⟩
    · exact ⟨hnext, rank_step hin (fun h => absurd h hpc) (fun h => absurd h hpc)⟩
    · exact absurd htest hpc
  obtain ⟨t, hreach, -, v, hin⟩ := reaches_of_rank rank hdec s hs
  exact ⟨t, v, hreach, hin⟩

/-- The step at the exit test swaps, so it reads all that `swap` prints. -/
theorem touched_of_test {a : Int → Int} {lo hi : Int} {rest : List Frame}
    {v : Locals} {s : Machine} (h : InLoop a lo hi rest .test v s) {k : Int}
    (hk : 0 ≤ k ∧ k < qsArrayLen) : k ∈ (step s).mem.touched := by
  rw [step_touched h.stack]
  exact List.mem_append_left _ ((mem_printAccesses_test k).mpr hk)

/-- Sorting at least two elements prints `QS_ARRAY_LEN` of them at some
    step. -/
theorem print_reached (ar : Int → Int) {len : Nat} (hlen : 2 ≤ len) :
    ∃ n : Nat, ∀ k, 0 ≤ k → k < qsArrayLen →
      k ∈ (step^[n] (quicksort ar len)).mem.touched := by
  obtain ⟨t, v, ⟨n, hn⟩, hin⟩ := test_reached _
    ⟨_, _, inLoop_enter (show (0 : Int) < len - 1 by omega) ⟨ar, [], ""⟩ []⟩
  refine ⟨n + 1 + 1, ?_⟩
  intro k h₁ h₂
  have hrun : step^[n + 1] (quicksort ar len) = t := hn
  rw [Function.iterate_succ_apply', hrun]
  exact touched_of_test hin ⟨h₁, h₂⟩

/-- A run on at most one element accesses nothing. -/
theorem touched_short (ar : Int → Int) {len : Nat} (hlen : len ≤ 1) (n : Nat) :
    (step^[n] (quicksort ar len)).mem.touched = [] := by
  cases n with
  | zero => rfl
  | succ n =>
      have hstep : step (quicksort ar len) = ⟨⟨ar, [], ""⟩, []⟩ :=
        step_return (by omega) _ _
      rw [Function.iterate_succ_apply, hstep, iterate_halted]

/-- **WHOLE-RUN BOUNDS**: on an array of exactly `len` elements, every
    access of every step is inside it iff there is nothing to sort or the
    array has the `QS_ARRAY_LEN` elements that `swap` prints. -/
theorem quicksort_inBounds_iff (ar : Int → Int) (len : Nat) :
    (∀ n : Nat, ∀ k ∈ (step^[n] (quicksort ar len)).mem.touched, 0 ≤ k ∧ k < len)
      ↔ len ≤ 1 ∨ 10 ≤ len := by
  constructor
  · intro h
    by_contra hlen
    obtain ⟨n, hn⟩ := print_reached ar (show 2 ≤ len by omega)
    have hlast := h n 9 (hn 9 (by decide) (by decide))
    omega
  · rintro (hshort | hlong) n k hk
    · rw [touched_short ar hshort n] at hk
      exact nomatch hk
    · obtain ⟨h₁, h₂ | h₂⟩ := (bounded_run ar len n).touched k hk
      · exact ⟨h₁, h₂⟩
      · have h10 : k < 10 := h₂
        exact ⟨h₁, by omega⟩

/-- Sorting `{2, 1}` reads the element after the array. -/
theorem quicksort_reads_past_pair :
    ¬ ∀ n : Nat, ∀ k ∈ (step^[n] (quicksort (fun k => if k = 0 then 2 else 1)
      (2 : Nat))).mem.touched, 0 ≤ k ∧ k < (2 : Nat) := by
  intro h
  exact absurd (h 4 2 (by decide)) (by decide)

end CPetQuicksort
