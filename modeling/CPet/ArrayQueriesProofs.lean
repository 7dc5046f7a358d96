import CPet.OrderStatisticProofs
import CPet.QuicksortSortProofs
import CPet.SumProofs
import CPet.TwoLargestProofs
import Mathlib.Algebra.BigOperators.Group.List.Basic

/-! # Questions about an array, before and after `quicksort`

    `search` goes through an array until it meets the key, `findMiddle` reads
    the element halfway, `storeZeros` clears elements.

    Sorting does not change what is in an array, so `search` and
    `findTwoLargest` answer as before, and the sum is the same modulo
    `2 ^ 32`; and the element halfway is then the upper median of
    what the array held before. -/

namespace CPetArrayQueries

open CPetSegment CPetRun CPetIntArray CPetSum CPetOrderStatistic CPetTopTwo CPetTwoLargest
open CPetQuicksort (quicksort sorts_of_returns Sorts)

/-! ## The functions -/

/-- The pointer of `search`, and whether it has returned `true`. -/
structure SearchLocals where
  p : Int
  found : Bool
  mem : Mem

/-- `for(const int *p = a; p < &a[n]; p++) if(*p == key) return true;` -/
def searchLoop (n : Nat) (key : Int) : Loop SearchLocals where
  guard := fun s => !s.found && decide (s.p < n)
  body := fun s =>
    let read := load s.p s.mem
    if read.1 = key then ⟨s.p, true, read.2⟩ else ⟨s.p + 1, s.found, read.2⟩
  rank := fun s => (n - s.p).toNat + (if s.found then 0 else 1)
  dec := by
    intro s h
    rw [Bool.and_eq_true, Bool.not_eq_true', decide_eq_true_eq] at h
    obtain ⟨hfound, hlt⟩ := h
    simp only [hfound, if_neg Bool.false_ne_true]
    split
    · show (n - s.p).toNat + 0 < _
      omega
    · show (n - (s.p + 1)).toNat + 1 < _
      omega

/-- `search(a, n, key)`. -/
def search (n : Nat) (key : Int) (m : Mem) : Bool × Mem :=
  let s := (searchLoop n key).run ⟨0, false, m⟩
  (s.found, s.mem)

/-- `storeZeros(a, n)`. -/
def storeZeros (n : Int) (m : Mem) : Mem :=
  forRange n.toNat (fun p m => store p 0 m) m

/-- `findMiddle(a, n)`. -/
def findMiddle (n : Int) (m : Mem) : Int × Mem := load (n.tdiv 2) m

/-! ## `search` -/

/-- The state of `search` at the pointer `k`: not found before, or found there. -/
def Searched (n : Nat) (key : Int) (m : Mem) (s : SearchLocals) : Prop :=
  ∃ k : Nat, k ≤ n ∧ s.p = k ∧ key ∉ contents m.ar k
    ∧ ((s.found = false ∧ s.mem = { m with touched := offsets 0 k ++ m.touched })
      ∨ (s.found = true ∧ k < n ∧ m.ar k = key
        ∧ s.mem = { m with touched := offsets 0 (k + 1) ++ m.touched }))

theorem searched_body {n : Nat} {key : Int} {m : Mem} {s : SearchLocals}
    (h : Searched n key m s) (hguard : (searchLoop n key).guard s = true) :
    Searched n key m ((searchLoop n key).body s) := by
  obtain ⟨hnot, hlt⟩ := Bool.and_eq_true_iff.mp hguard
  have hlt' := of_decide_eq_true hlt
  obtain ⟨p, found, mem⟩ := s
  obtain ⟨k, hk, hp, hbefore, hstate⟩ := h
  have hp' : p = k := hp
  have hk' : k < n := by
    have : p < n := hlt'
    omega
  rcases hstate with ⟨hfound, hmem⟩ | ⟨hfound, -⟩
  · have hfound' : found = false := hfound
    have hmem' : mem = { m with touched := offsets 0 k ++ m.touched } := hmem
    subst hp' hfound' hmem'
    have htouched : (k : Int) :: (offsets 0 k ++ m.touched) = offsets 0 (k + 1) ++ m.touched := by
      rw [offsets_succ, zero_add]
      rfl
    by_cases hkey : m.ar k = key
    · have hbody : (searchLoop n key).body
          ⟨k, false, { m with touched := offsets 0 k ++ m.touched }⟩
          = ⟨k, true, { m with touched := offsets 0 (k + 1) ++ m.touched }⟩ := by
        rw [← htouched]
        exact if_pos hkey
      rw [hbody]
      exact ⟨k, hk, rfl, hbefore, .inr ⟨rfl, hk', hkey, rfl⟩⟩
    · have hbody : (searchLoop n key).body
          ⟨k, false, { m with touched := offsets 0 k ++ m.touched }⟩
          = ⟨k + 1, false, { m with touched := offsets 0 (k + 1) ++ m.touched }⟩ := by
        rw [← htouched]
        exact if_neg hkey
      rw [hbody]
      refine ⟨k + 1, hk', rfl, ?_, .inl ⟨rfl, rfl⟩⟩
      rw [contents_succ, List.mem_append, List.mem_singleton, not_or]
      exact ⟨hbefore, Ne.symm hkey⟩
  · rw [hfound] at hnot
    exact absurd hnot Bool.false_ne_true

/-- **SEARCH** finds what is there, and reads the elements up to the first that is
    the key. -/
theorem search_spec (n : Nat) (key : Int) (m : Mem) :
    (search n key m).1 = decide (key ∈ contents m.ar n)
      ∧ (search n key m).2
        = { m with
            touched := offsets 0 (min ((contents m.ar n).idxOf key + 1) n) ++ m.touched } := by
  have hrun : Searched n key m ((searchLoop n key).run ⟨0, false, m⟩) := by
    refine Loop.run_invariant (I := Searched n key m) (fun s => searched_body) _ ?_
    exact ⟨0, Nat.zero_le n, rfl, List.not_mem_nil, .inl ⟨rfl, rfl⟩⟩
  have hexit := Loop.run_exit (searchLoop n key) ⟨0, false, m⟩
  rw [search]
  generalize (searchLoop n key).run ⟨0, false, m⟩ = s at hrun hexit
  obtain ⟨k, hk, hp, hbefore, hstate⟩ := hrun
  -- the elements up to the pointer are the first ones of the array
  have hsplit : ∀ j, j ≤ n → ∃ rest, contents m.ar n = contents m.ar j ++ rest := by
    intro j hj
    refine ⟨(contents m.ar n).drop j, ?_⟩
    have htake : (contents m.ar n).take j = contents m.ar j := by
      rw [contents, ← List.map_take, List.take_range, Nat.min_eq_left hj]
      rfl
    rw [← htake, List.take_append_drop]
  have hlength : ∀ j, (contents m.ar j).length = j := by
    intro j
    rw [contents, List.length_map, List.length_range]
  rcases hstate with ⟨hfound, hmem⟩ | ⟨hfound, hlt, hkey, hmem⟩
  · have hend : k = n := by
      by_contra hne
      refine hexit ?_
      show (!s.found && decide (s.p < n)) = true
      rw [hfound, hp, decide_eq_true (show (k : Int) < n by omega)]
      rfl
    subst hend
    rw [hfound, hmem, decide_eq_false hbefore, List.idxOf_of_notMem hbefore, hlength,
      Nat.min_eq_right (Nat.le_succ k)]
    exact ⟨rfl, rfl⟩
  · obtain ⟨rest, hrest⟩ := hsplit (k + 1) hlt
    rw [contents_succ, List.append_assoc] at hrest
    have hmem' : key ∈ contents m.ar n := by
      rw [hrest, List.mem_append]
      exact .inr (List.mem_append_left _ (List.mem_singleton.mpr hkey.symm))
    have hindex : (contents m.ar n).idxOf key = k := by
      rw [hrest, List.idxOf_append_of_notMem hbefore, hlength, List.singleton_append, hkey,
        List.idxOf_cons_self, Nat.add_zero]
    rw [hfound, hmem, decide_eq_true hmem', hindex, Nat.min_eq_left hlt]
    exact ⟨rfl, rfl⟩

/-! ## `storeZeros` -/

/-- **CLEARED**: the first `n` elements are 0, and nothing else has changed. -/
theorem storeZeros_ar (n : Int) (m : Mem) :
    (storeZeros n m).ar = fun k => if 0 ≤ k ∧ k < n then 0 else m.ar k := by
  have hrounds : ∀ r : Nat, (forRange r (fun p m => store p 0 m) m).ar
      = fun k : Int => if 0 ≤ k ∧ k < r then 0 else m.ar k := by
    intro r
    induction r with
    | zero =>
        funext k
        exact (if_neg (by omega)).symm
    | succ r ih =>
        rw [forRange_succ]
        funext k
        show Function.update (forRange r _ m).ar r 0 k = _
        rw [ih]
        by_cases hk : k = r
        · rw [hk, Function.update_self, if_pos (by omega)]
        · rw [Function.update_of_ne hk]
          by_cases hin : 0 ≤ k ∧ k < r
          · rw [if_pos hin, if_pos (by omega)]
          · rw [if_neg hin, if_neg (by omega)]
  rw [storeZeros, hrounds]
  funext k
  by_cases hin : 0 ≤ k ∧ k < n
  · rw [if_pos hin, if_pos (by omega)]
  · rw [if_neg hin, if_neg (by omega)]

/-! ## After sorting -/

/-- The exact sum is the sum of the list. -/
theorem prefixSum_eq_sum (ar : Int → Int) (n : Nat) : prefixSum ar 0 n = (contents ar n).sum := by
  induction n with
  | zero => rfl
  | succ n ih =>
      rw [prefixSum, contents_succ, List.sum_append, List.sum_singleton, ih, zero_add]

/-- **AFTER SORTING** the element halfway is the upper median of what the array held,
    and the questions that do not depend on the order are answered as before. -/
theorem queries_after_quicksort (ar : Int → Int) {len : Nat} (hlen : 0 < len) (n : Nat) (m : Mem)
    (hret : CPetQuicksort.step^[n] (quicksort ar len) = ⟨m, []⟩) :
    IsRank (contents ar len) (len / 2) (findMiddle len m).1
      ∧ (∀ key, (search len key m).1 = (search len key ⟨ar, [], ""⟩).1)
      ∧ (findTwoLargest len m).first = (findTwoLargest len ⟨ar, [], ""⟩).first
      ∧ (findTwoLargest len m).second = (findTwoLargest len ⟨ar, [], ""⟩).second
      ∧ (sum2 0 len m).1.sum = (sum2 0 len ⟨ar, [], ""⟩).1.sum := by
  obtain ⟨hrearranged, hsorted⟩ := sorts_of_returns hret
  have hperm := hrearranged.contents_perm
  have htwo : TopTwo (padded len ar) (findTwoLargest len m).first
      (findTwoLargest len m).second := by
    have hsame : padded len m.ar = padded len ar := by
      have helements : (elements len m.ar).Perm (elements len ar) := hperm
      rw [padded, padded, Multiset.coe_eq_coe.mpr helements]
    exact hsame ▸ (findTwoLargest_spec len m).1
  obtain ⟨hfirst, hsecond⟩ := htwo.unique (findTwoLargest_spec len ⟨ar, [], ""⟩).1
  refine ⟨?_, ?_, hfirst, hsecond, ?_⟩
  · refine (isRank_of_sorted hsorted.pairwise_contents ?_).perm hperm
    have hhalf : len / 2 < len := Nat.div_lt_self hlen (by decide)
    rw [contents, List.getElem?_map, List.getElem?_range hhalf]
    rfl
  · intro key
    rw [(search_spec len key m).1, (search_spec len key ⟨ar, [], ""⟩).1]
    exact decide_eq_decide.mpr hperm.mem_iff
  · rw [sum2_eq, sum2_eq]
    refine Int32.toInt_inj.mp ?_
    rw [Int.toNat_natCast, toInt_totalOf, toInt_totalOf, prefixSum_eq_sum, prefixSum_eq_sum,
      hperm.sum_eq]

theorem queries_after_quicksort_pair :
    let ar : Int → Int := fun k => if k = 0 then 2 else 1
    let m := (CPetQuicksort.step^[6] (quicksort ar (2 : Nat))).mem
    IsRank (contents ar 2) (2 / 2) (findMiddle (2 : Nat) m).1
      ∧ (∀ key, (search 2 key m).1 = (search 2 key ⟨ar, [], ""⟩).1)
      ∧ (findTwoLargest (2 : Nat) m).first = (findTwoLargest (2 : Nat) ⟨ar, [], ""⟩).first
      ∧ (findTwoLargest (2 : Nat) m).second = (findTwoLargest (2 : Nat) ⟨ar, [], ""⟩).second
      ∧ (sum2 0 (2 : Nat) m).1.sum = (sum2 0 (2 : Nat) ⟨ar, [], ""⟩).1.sum :=
  queries_after_quicksort (fun k => if k = 0 then 2 else 1) (by decide) 6 _ rfl

end CPetArrayQueries
