import CPet.QuicksortCostProofs

/-! # When `quicksort` returns

    A partition loop exits exactly when at most one element behind the first
    equals the pivot, and the whole run returns exactly when no value occurs three
    times: three copies keep some loop running, and without them every call returns
    within its bound. -/

namespace CPetQuicksort

open CPetSegment CPetRun CPetIntArray CPetQuicksortCost

/-! ## Calls that return -/

/-- **THE LOOP EXITS**: the call breaks out of its loop and is left with its
    two recursive calls. -/
def PartitionExits (lo hi : Int) (m : Mem) (rest : List Frame) : Prop :=
  ∃ j m', Reaches step ⟨m, .call lo hi :: rest⟩
    ⟨m', .call lo (j - 1) :: .call (j + 1) hi :: rest⟩

/-- The loop exits within reach of the partitioned memory. -/
theorem partition_of_copies {lo hi : Int} (hlt : lo < hi) (m : Mem)
    (rest : List Frame) (hone : copies m.ar (m.ar lo) (lo + 1) hi ≤ 1) :
    ∃ j m', Reaches step ⟨m, .call lo hi :: rest⟩
        ⟨m', .call lo (j - 1) :: .call (j + 1) hi :: rest⟩
      ∧ Partitioned lo hi j m.ar m'.ar := by
  obtain ⟨n, j, m', -, hrun, hpart⟩ := partition_within hlt m rest hone
  exact ⟨j, m', ⟨n, hrun⟩, hpart⟩

/-- **EXACT EXIT CONDITION** of one partition loop. -/
theorem partitionExits_iff {lo hi : Int} (hlt : lo < hi) (m : Mem)
    (rest : List Frame) :
    PartitionExits lo hi m rest ↔ copies m.ar (m.ar lo) (lo + 1) hi ≤ 1 := by
  constructor
  · rintro ⟨j, m', n, hn⟩
    cases n with
    | zero =>
        have hlen := congrArg (fun s => s.stack.length) hn
        simp at hlen
    | succ n =>
        rcases inLoop_run n _ ⟨_, _, inLoop_enter hlt m rest⟩ with hend | hexit
        · obtain ⟨pc, v, hin⟩ := hend
          have hstack := hin.stack
          rw [← Function.iterate_succ_apply, hn] at hstack
          exact nomatch hstack
        · obtain ⟨p, v, -, hin, hij⟩ := hexit
          exact copies_of_inLoop_exit hin hij
  · intro hone
    obtain ⟨j, m', hreach, -⟩ := partition_of_copies hlt m rest hone
    exact ⟨j, m', hreach⟩

/-- **TOTAL CORRECTNESS**: with no value three times in the range, the call
    returns and has sorted it. -/
theorem call_sorts_of_copies (lo hi : Int) (m : Mem) (rest : List Frame)
    (hv : ∀ v, copies m.ar v lo hi ≤ 2) :
    ∃ m', Reaches step ⟨m, .call lo hi :: rest⟩ ⟨m', rest⟩ ∧ Sorts lo hi m.ar m'.ar := by
  obtain ⟨n, m', -, hrun, hsorts⟩ := call_within _ lo hi m rest (le_refl _) hv
  exact ⟨m', ⟨n, hrun⟩, hsorts⟩

/-! ## The whole program -/

theorem returns_iff_copies (ar : Int → Int) (len : Nat) :
    Returns (quicksort ar len) ↔ ∀ v, copies ar v 0 ((len : Int) - 1) ≤ 2 := by
  constructor
  · exact copies_of_returns
  · intro hv
    obtain ⟨m', ⟨n, hn⟩, -⟩ :=
      call_sorts_of_copies 0 (len - 1) ⟨ar, [], ""⟩ [] hv
    exact ⟨n, congrArg Machine.stack hn⟩

/-- **TERMINATION**: `quicksort(ar, len)` returns exactly when every value
    occurs at most twice among `ar[0..len-1]`. -/
theorem quicksort_returns_iff (ar : Int → Int) (len : Nat) :
    Returns (quicksort ar len) ↔ ∀ v, (contents ar len).count v ≤ 2 := by
  rw [returns_iff_copies]
  refine forall_congr' ?_
  intro v
  rw [count_contents]

/-- Three equal elements keep `quicksort` in its partition loop forever. -/
theorem quicksort_stuck_on_equal : ¬ Returns (quicksort (fun _ => 5) (3 : Nat)) := by
  rw [returns_iff_copies]
  intro h
  exact absurd (h 5) (by decide)

/-- **EXACT TERMINATION DOMAIN**: the program returns iff no value occurs
    three times, and each partition loop exits iff at most one element after
    the first equals the pivot. -/
theorem quicksort_domain (ar : Int → Int) (len : Nat) :
    (Returns (quicksort ar len) ↔ ¬ ∃ v, 3 ≤ (contents ar len).count v)
      ∧ ∀ (lo hi : Int) (m : Mem) (rest : List Frame), lo < hi →
        (PartitionExits lo hi m rest
          ↔ copies m.ar (m.ar lo) (lo + 1) hi ≤ 1) := by
  constructor
  · rw [returns_iff_copies]
    constructor
    · rintro h ⟨v, hv⟩
      rw [count_contents] at hv
      have := h v
      omega
    · intro h v
      by_contra hv
      refine h ⟨v, ?_⟩
      rw [count_contents]
      omega
  · intro lo hi m rest hlt
    exact partitionExits_iff hlt m rest

theorem quicksort_domain_pair :
    PartitionExits 0 1 ⟨fun _ => 5, [], ""⟩ []
      ↔ copies (fun _ => (5 : Int)) 5 (0 + 1) 1 ≤ 1 :=
  (quicksort_domain (fun _ => 5) 2).2 0 1 ⟨fun _ => 5, [], ""⟩ [] (by decide)

end CPetQuicksort
