import CPet.QuicksortProofs

/-! # A returning `quicksort` sorts

    Partial correctness by induction on the number of steps: a machine that
    halts with a call on top of its stack first returns from that call, and
    the call has sorted its range and only rearranged it.  The induction step
    is `sorts_of_parts`: partition, sort left, sort right. -/

namespace CPetQuicksort

open CPetSegment CPetRun CPetIntArray

/-- What a call on `[lo, hi]` owes: the range rearranged, and sorted. -/
structure Sorts (lo hi : Int) (a b : Int → Int) : Prop where
  rearranged : Rearranged lo hi a b
  sorted : SortedOn b lo hi

theorem sorts_of_short {lo hi : Int} (h : hi ≤ lo) (a : Int → Int) :
    Sorts lo hi a a :=
  ⟨Rearranged.refl lo hi a, sortedOn_of_ge a h⟩

/-- **RECURSION STEP**: sorting both parts of a partitioned range sorts the
    range. -/
theorem sorts_of_parts {lo hi j : Int} {a b c d : Int → Int}
    (hp : Partitioned lo hi j a b) (hl : Sorts lo (j - 1) b c)
    (hr : Sorts (j + 1) hi c d) : Sorts lo hi a d := by
  have hlo := hp.lo_le_j
  have hhi := hp.j_le_hi
  -- neither recursive call moves the pivot or the other part
  have hdc : ∀ k, k ≤ j → d k = c k := by
    intro k hk
    exact hr.rearranged.outside (by omega)
  have hcb : ∀ k, j ≤ k → c k = b k := by
    intro k hk
    exact hl.rearranged.outside (by omega)
  have hdj : d j = b j := by
    rw [hdc j (le_refl _), hcb j (le_refl _)]
  have hle : ∀ k, lo ≤ k → k ≤ j - 1 → d k ≤ d j := by
    intro k h₁ h₂
    rw [hdc k (by omega), hdj]
    exact hl.rearranged.forall_window (P := fun x => x ≤ b j) hp.le_pivot k h₁ h₂
  have hge : ∀ k, j + 1 ≤ k → k ≤ hi → d j ≤ d k := by
    have habove : ∀ k, j + 1 ≤ k → k ≤ hi → b j ≤ c k := by
      intro k h₁ h₂
      rw [hcb k (by omega)]
      exact le_of_lt (hp.above k (by omega) h₂)
    intro k h₁ h₂
    rw [hdj]
    exact hr.rearranged.forall_window (P := fun x => b j ≤ x) habove k h₁ h₂
  have hleft : SortedOn d lo (j - 1) :=
    hl.sorted.congr (fun k _ h₂ => hdc k (by omega))
  refine ⟨?_, sortedOn_of_split hleft hr.sorted hle hge⟩
  exact hp.rearranged.trans
    ((hl.rearranged.mono (le_refl _) (by omega)).trans
      (hr.rearranged.mono (by omega) (le_refl _)))

/-- The rest of a halting run halts. -/
theorem halts_rest {n p : Nat} {s t : Machine} (hp : p ≤ n)
    (ht : step^[p] s = t) (hn : (step^[n] s).stack = []) :
    (step^[n - p] t).stack = [] := by
  have hsplit : step^[n] s = step^[n - p] (step^[p] s) := by
    rw [← Function.iterate_add_apply, Nat.sub_add_cancel hp]
  rw [hsplit, ht] at hn
  exact hn

/-- **CALLS RETURN SORTED**: if the machine halts at all, the topmost call
    returns first, having sorted its range. -/
theorem call_of_halts :
    ∀ (n : Nat) (lo hi : Int) (m : Mem) (rest : List Frame),
      (step^[n] ⟨m, .call lo hi :: rest⟩).stack = [] →
      ∃ p m', 0 < p ∧ p ≤ n ∧ step^[p] ⟨m, .call lo hi :: rest⟩ = ⟨m', rest⟩
        ∧ Sorts lo hi m.ar m'.ar := by
  intro n
  induction n using Nat.strongRecOn with
  | ind n ih =>
      intro lo hi m rest hn
      rcases le_or_gt hi lo with hle | hlt
      · have hpos : 0 < n := by
          cases n with
          | zero => exact nomatch hn
          | succ n => exact Nat.succ_pos n
        exact ⟨1, m, Nat.one_pos, hpos, step_return hle m rest,
          sorts_of_short hle m.ar⟩
      · obtain ⟨p, j, m₁, hp, hrun, hpart⟩ := partition_of_halts hlt hn
        -- both recursive calls start later, so the induction covers them
        have hn₁ := halts_rest hp hrun hn
        obtain ⟨q, m₂, hq, hqn, hrun₂, hl⟩ := ih _ (by omega) _ _ _ _ hn₁
        have hn₂ := halts_rest hqn hrun₂ hn₁
        obtain ⟨r, m₃, hr, hrn, hrun₃, hsr⟩ := ih _ (by omega) _ _ _ _ hn₂
        refine ⟨r + (q + (p + 1)), m₃, by omega, by omega, ?_,
          sorts_of_parts hpart hl hsr⟩
        rw [Function.iterate_add_apply, Function.iterate_add_apply, hrun, hrun₂, hrun₃]

/-- What is known of the memory when `quicksort` has returned. -/
theorem sorts_of_returns {ar : Int → Int} {len n : Nat} {m : Mem}
    (hret : step^[n] (quicksort ar len) = ⟨m, []⟩) : Sorts 0 ((len : Int) - 1) ar m.ar := by
  have hhalt : (step^[n] (quicksort ar len)).stack = [] := by
    rw [hret]
  obtain ⟨p, m', -, hpn, hrun, hs⟩ := call_of_halts n _ _ _ _ hhalt
  have hrest : step^[n] (quicksort ar len) = step^[n - p] ⟨m', []⟩ := by
    rw [← hrun, ← Function.iterate_add_apply, Nat.sub_add_cancel hpn]
    rfl
  rw [hret, iterate_halted] at hrest
  have hm : m' = m := (congrArg Machine.mem hrest).symm
  rw [hm] at hs
  exact hs

/-- **PARTIAL CORRECTNESS**: whenever `quicksort(ar, len)` returns, after any
    number of steps, `ar[0..len-1]` is non-decreasing, is a permutation of
    what it was, and nothing else has changed. -/
theorem quicksort_sorts (ar : Int → Int) (len : Nat) (n : Nat) (m : Mem)
    (hret : step^[n] (quicksort ar len) = ⟨m, []⟩) :
    (∀ k l : Int, 0 ≤ k → k ≤ l → l < len → m.ar k ≤ m.ar l)
      ∧ (contents m.ar len).Perm (contents ar len)
      ∧ ∀ k : Int, ¬ (0 ≤ k ∧ k < len) → m.ar k = ar k := by
  have hs := sorts_of_returns hret
  refine ⟨?_, hs.rearranged.contents_perm, ?_⟩
  · intro k l h₁ h₂ h₃
    exact hs.sorted k l h₁ h₂ (by omega)
  · intro k hk
    exact hs.rearranged.outside (by omega)

theorem quicksort_sorts_pair :
    let ar : Int → Int := fun k => if k = 0 then 2 else 1
    let m := (step^[6] (quicksort ar (2 : Nat))).mem
    (∀ k l : Int, 0 ≤ k → k ≤ l → l < (2 : Nat) → m.ar k ≤ m.ar l)
      ∧ (contents m.ar 2).Perm (contents ar 2)
      ∧ ∀ k : Int, ¬ (0 ≤ k ∧ k < (2 : Nat)) → m.ar k = ar k :=
  quicksort_sorts (fun k => if k = 0 then 2 else 1) 2 6 _ rfl

end CPetQuicksort
