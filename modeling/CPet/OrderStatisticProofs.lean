import Mathlib.Data.List.Perm.Basic
import Mathlib.Order.Lattice
import Mathlib.Tactic.Common

/-! # Order statistics

    The element of rank `k` of a list is the one that sorting it puts at index
    `k`.  It is determined by counting, without sorting: at most `k` elements
    are below it, and more than `k` are not above it.  So it depends
    on the elements alone, and not on their order. -/

namespace CPetOrderStatistic

variable {α : Type} [LinearOrder α]

/-- The element of rank `k`, counted from 0. -/
structure IsRank (xs : List α) (k : Nat) (x : α) : Prop where
  below : xs.countP (fun y => decide (y < x)) ≤ k
  above : k < xs.countP (fun y => decide (y ≤ x))

/-- **UNIQUE**: there is one element of each rank. -/
theorem IsRank.unique {xs : List α} {k : Nat} {x y : α} (hx : IsRank xs k x)
    (hy : IsRank xs k y) : x = y := by
  -- of two, everything up to the smaller one would be below the larger one
  have hnot : ∀ {v w : α}, IsRank xs k v → IsRank xs k w → ¬ v < w := by
    intro v w hv hw hlt
    have hcount : xs.countP (fun z => decide (z ≤ v)) ≤ xs.countP (fun z => decide (z < w)) := by
      refine List.countP_mono_left ?_
      intro z _ hz
      exact decide_eq_true ((of_decide_eq_true hz).trans_lt hlt)
    have habove := hv.above
    have hbelow := hw.below
    omega
  exact le_antisymm (not_lt.mp (hnot hy hx)) (not_lt.mp (hnot hx hy))

/-- The order of the elements does not matter. -/
theorem IsRank.perm {xs ys : List α} {k : Nat} {x : α} (h : IsRank xs k x) (hperm : xs.Perm ys) :
    IsRank ys k x where
  below := (hperm.countP_eq _) ▸ h.below
  above := (hperm.countP_eq _) ▸ h.above

/-- **SORTED**: at index `k` of a sorted list there is its element of rank `k`. -/
theorem isRank_of_sorted {xs : List α} (h : xs.Pairwise (fun x y => x ≤ y)) :
    ∀ {k : Nat} {x : α}, xs[k]? = some x → IsRank xs k x := by
  induction xs with
  | nil =>
      intro k x hx
      rw [List.getElem?_nil] at hx
      cases hx
  | cons y ys ih =>
      intro k x hx
      obtain ⟨hle, hsorted⟩ := List.pairwise_cons.mp h
      cases k with
      | zero =>
          rw [List.getElem?_cons_zero] at hx
          cases hx
          constructor
          · have hnone : (y :: ys).countP (fun z => decide (z < y)) = 0 := by
              rw [List.countP_eq_zero]
              intro z hz
              rw [decide_eq_true_eq, not_lt]
              rcases List.mem_cons.mp hz with rfl | hz
              · exact le_refl _
              · exact hle z hz
            exact Nat.le_of_eq hnone
          · rw [List.countP_cons, if_pos (decide_eq_true (le_refl y))]
            exact Nat.succ_pos _
      | succ k =>
          rw [List.getElem?_cons_succ] at hx
          obtain ⟨hbelow, habove⟩ := ih hsorted hx
          have hyx : y ≤ x := hle x (List.mem_of_getElem? hx)
          constructor
          · rw [List.countP_cons]
            split
            · omega
            · omega
          · rw [List.countP_cons, if_pos (decide_eq_true hyx)]
            omega

end CPetOrderStatistic
