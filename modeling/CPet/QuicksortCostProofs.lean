import CPet.QuicksortCopiesProofs
import Mathlib.Tactic.Ring

/-! # How long `quicksort` runs

    The rank that makes a partition loop exit also bounds its length: at most
    four steps per element, the entry and the `break` included.  Both parts
    together have one element less than the range, so the calls below a range
    of `n` elements take at most `2 n² + 3 n + 1` steps.

    A run that has not returned by then never does: termination of `quicksort`
    on a given array is decided by running it that long. -/

namespace CPetQuicksortCost

open CPetSegment CPetRun CPetIntArray CPetQuicksort

/-- The steps that a call on `n` elements may take. -/
def stepBound (n : Nat) : Nat := 2 * n ^ 2 + 3 * n + 1

/-- The elements of a range. -/
def size (lo hi : Int) : Nat := (hi - lo + 1).toNat

/-- One partition and both recursive calls stay within the bound. -/
theorem stepBound_split {n k l : Nat} (h : k + l + 1 = n) :
    stepBound k + stepBound l + 4 * n ≤ stepBound n := by
  subst h
  have hsq : (k + l + 1) ^ 2 = k ^ 2 + l ^ 2 + 2 * (k * l) + 2 * k + 2 * l + 1 := by ring
  simp only [stepBound]
  omega

/-- The rank at the entry of a partition loop. -/
theorem loopRank_enter (ar : Int → Int) {lo hi : Int} (pivot : Int) (hlt : lo < hi) :
    loopRank ar .scanI ⟨lo, hi, pivot, lo + 1, hi⟩ + 2 ≤ 4 * size lo hi := by
  have hw : width ⟨lo, hi, pivot, lo + 1, hi⟩ + 1 = size lo hi := by
    show (hi - (lo + 1) + 1).toNat + 1 = (hi - lo + 1).toNat
    omega
  rw [loopRank]
  omega

/-- **PARTITION IN LINEAR TIME**: with at most one further copy of the pivot, the
    two recursive calls are reached within four steps per element. -/
theorem partition_within {lo hi : Int} (hlt : lo < hi) (m : Mem) (rest : List Frame)
    (hone : copies m.ar (m.ar lo) (lo + 1) hi ≤ 1) :
    ∃ n j m', n ≤ 4 * size lo hi
      ∧ step^[n] ⟨m, .call lo hi :: rest⟩ = ⟨m', .call lo (j - 1) :: .call (j + 1) hi :: rest⟩
      ∧ Partitioned lo hi j m.ar m'.ar := by
  have henter := inLoop_enter hlt m rest
  obtain ⟨n, hn, -, v, hin, hij⟩ := steps_of_rank rank (inLoop_progress hone) _ ⟨_, _, henter⟩
  obtain ⟨hstep, hpart⟩ := step_of_exit hin hij
  have hrank := loopRank_enter m.ar (m.ar lo) hlt
  rw [rank_inLoop henter, step_enter hlt] at hn
  refine ⟨n + 1 + 1, v.j, _, ?_, ?_, hpart⟩
  · have hn' : n ≤ loopRank m.ar .scanI ⟨lo, hi, m.ar lo, lo + 1, hi⟩ := hn
    omega
  · rw [Function.iterate_succ_apply, Function.iterate_succ_apply']
    exact hstep

/-- **CALLS RETURN IN QUADRATIC TIME**, when no value occurs three times. -/
theorem call_within :
    ∀ (N : Nat) (lo hi : Int) (m : Mem) (rest : List Frame),
      size lo hi ≤ N → (∀ v, copies m.ar v lo hi ≤ 2) →
      ∃ n m', n ≤ stepBound (size lo hi)
        ∧ step^[n] ⟨m, .call lo hi :: rest⟩ = ⟨m', rest⟩ ∧ Sorts lo hi m.ar m'.ar := by
  intro N
  induction N with
  | zero =>
      intro lo hi m rest hN _
      have hle : hi ≤ lo := by
        rw [size] at hN
        omega
      exact ⟨1, m, by simp [stepBound], step_return hle m rest, sorts_of_short hle m.ar⟩
  | succ N ih =>
      intro lo hi m rest hN hv
      rcases le_or_gt hi lo with hle | hlt
      · exact ⟨1, m, by simp [stepBound], step_return hle m rest, sorts_of_short hle m.ar⟩
      · have hone : copies m.ar (m.ar lo) (lo + 1) hi ≤ 1 := by
          have h2 := hv (m.ar lo)
          rw [copies_head (le_of_lt hlt)] at h2
          omega
        obtain ⟨n, j, m₁, hn, hrun, hpart⟩ := partition_within hlt m rest hone
        have hlo := hpart.lo_le_j
        have hhi := hpart.j_le_hi
        -- the pivot is in neither part
        have hsize : size lo (j - 1) + size (j + 1) hi + 1 = size lo hi := by
          simp only [size]
          omega
        have hv₁ : ∀ v, copies m₁.ar v lo hi ≤ 2 := by
          intro v
          rw [copies_partitioned hpart]
          exact hv v
        have hvl : ∀ v, copies m₁.ar v lo (j - 1) ≤ 2 := by
          intro v
          exact (copies_mono (le_refl lo) (by omega) v).trans (hv₁ v)
        obtain ⟨p, m₂, hp, hrun₂, hl⟩ :=
          ih lo (j - 1) m₁ (.call (j + 1) hi :: rest) (by omega) hvl
        have hvr : ∀ v, copies m₂.ar v (j + 1) hi ≤ 2 := by
          intro v
          rw [copies_congr (fun k _ _ => hl.rearranged.outside (by omega)) v]
          exact (copies_mono (by omega) (le_refl hi) v).trans (hv₁ v)
        obtain ⟨q, m₃, hq, hrun₃, hr⟩ := ih (j + 1) hi m₂ rest (by omega) hvr
        have hbound := stepBound_split hsize
        refine ⟨q + (p + n), m₃, by omega, ?_, sorts_of_parts hpart hl hr⟩
        rw [Function.iterate_add_apply, Function.iterate_add_apply, hrun, hrun₂, hrun₃]

/-- A program that returns has no value three times in its array. -/
theorem copies_of_returns {ar : Int → Int} {len : Nat} (h : Returns (quicksort ar len)) (v : Int) :
    copies ar v 0 ((len : Int) - 1) ≤ 2 := by
  obtain ⟨n, hn⟩ := h
  by_contra hv
  exact call_diverges n 0 (len - 1) ⟨ar, [], ""⟩ [] v (not_le.mp hv) hn

/-- **TERMINATION IS DECIDED IN QUADRATIC TIME**: `quicksort(ar, len)` returns at
    all exactly when it has returned after `2 len² + 3 len + 1` steps. -/
theorem quicksort_returns_within (ar : Int → Int) (len : Nat) :
    Returns (quicksort ar len)
      ↔ (step^[2 * len ^ 2 + 3 * len + 1] (quicksort ar len)).stack = [] := by
  constructor
  · intro h
    have hsize : size 0 ((len : Int) - 1) = len := by
      rw [size]
      omega
    obtain ⟨n, m, hn, hrun, -⟩ :=
      call_within len 0 (len - 1) ⟨ar, [], ""⟩ [] (by omega) (copies_of_returns h)
    rw [hsize, stepBound] at hn
    have hsplit : step^[2 * len ^ 2 + 3 * len + 1] (quicksort ar len)
        = step^[2 * len ^ 2 + 3 * len + 1 - n] ⟨m, []⟩ := by
      rw [← hrun, ← Function.iterate_add_apply, Nat.sub_add_cancel hn]
      rfl
    rw [hsplit, iterate_halted]
  · intro h
    exact ⟨_, h⟩

end CPetQuicksortCost
