import Mathlib.Logic.Equiv.Basic
import Mathlib.Data.Finset.Image
import Mathlib.Data.Finset.Range
import Mathlib.Algebra.Order.Group.Int
import Mathlib.Data.List.Perm.Basic
import Mathlib.Data.Finset.Card

/-! # Segments of an indexed memory

    In-place algorithms work on a window `[lo, hi]` of a memory `Int → α` and
    promise two things: the window is only REARRANGED, and in the end it is
    SORTED.  This file is the algebra of both promises, for any cell type.

    A rearrangement is carried by a permutation of the indices that fixes
    everything outside the window, so composition, widening and transport of
    pointwise facts are facts about that permutation.  The number of copies of
    a value in a window is its only numeric invariant. -/

namespace CPetSegment

variable {α : Type}

/-- `b` is `a` with the cells of `[lo, hi]` rearranged. -/
def Rearranged (lo hi : Int) (a b : Int → α) : Prop :=
  ∃ σ : Equiv.Perm Int, (∀ k, ¬ (lo ≤ k ∧ k ≤ hi) → σ k = k) ∧ b = a ∘ σ

/-- Cells `i` and `j` exchanged by two writes, as a three-line swap does. -/
def exchange (a : Int → α) (i j : Int) : Int → α :=
  Function.update (Function.update a i (a j)) j (a i)

/-- An exchange composes with a transposition. -/
theorem exchange_eq_comp_swap (a : Int → α) (i j : Int) :
    exchange a i j = a ∘ Equiv.swap i j := by
  rw [Equiv.swap_comm, Equiv.comp_swap_eq_update]
  rfl

/-- Exchanging two cells of the window rearranges it. -/
theorem rearranged_exchange {lo hi i j : Int} (a : Int → α)
    (hi₁ : lo ≤ i) (hi₂ : i ≤ hi) (hj₁ : lo ≤ j) (hj₂ : j ≤ hi) :
    Rearranged lo hi a (exchange a i j) := by
  refine ⟨Equiv.swap i j, ?_, exchange_eq_comp_swap a i j⟩
  intro k hk
  have hki : k ≠ i := fun h => hk ⟨h ▸ hi₁, h ▸ hi₂⟩
  have hkj : k ≠ j := fun h => hk ⟨h ▸ hj₁, h ▸ hj₂⟩
  exact Equiv.swap_apply_of_ne_of_ne hki hkj

theorem exchange_left (a : Int → α) (i j : Int) : exchange a i j i = a j := by
  rw [exchange_eq_comp_swap]
  exact congrArg a (Equiv.swap_apply_left i j)

theorem exchange_right (a : Int → α) (i j : Int) : exchange a i j j = a i := by
  rw [exchange_eq_comp_swap]
  exact congrArg a (Equiv.swap_apply_right i j)

theorem exchange_of_ne (a : Int → α) {i j k : Int} (hi : k ≠ i) (hj : k ≠ j) :
    exchange a i j k = a k := by
  rw [exchange_eq_comp_swap]
  exact congrArg a (Equiv.swap_apply_of_ne_of_ne hi hj)

theorem Rearranged.refl (lo hi : Int) (a : Int → α) : Rearranged lo hi a a :=
  ⟨Equiv.refl Int, fun _ _ => rfl, rfl⟩

theorem Rearranged.trans {lo hi : Int} {a b c : Int → α}
    (h₁ : Rearranged lo hi a b) (h₂ : Rearranged lo hi b c) :
    Rearranged lo hi a c := by
  obtain ⟨σ, hσ, rfl⟩ := h₁
  obtain ⟨τ, hτ, rfl⟩ := h₂
  refine ⟨τ.trans σ, ?_, rfl⟩
  intro k hk
  show σ (τ k) = k
  rw [hτ k hk, hσ k hk]

/-- A rearrangement of a window rearranges every larger window. -/
theorem Rearranged.mono {lo hi lo' hi' : Int} {a b : Int → α}
    (h : Rearranged lo hi a b) (hlo : lo' ≤ lo) (hhi : hi ≤ hi') :
    Rearranged lo' hi' a b := by
  obtain ⟨σ, hσ, hb⟩ := h
  refine ⟨σ, ?_, hb⟩
  intro k hk
  exact hσ k (fun hin => hk ⟨by omega, by omega⟩)

/-- Nothing outside the window changes. -/
theorem Rearranged.outside {lo hi : Int} {a b : Int → α}
    (h : Rearranged lo hi a b) {k : Int} (hk : ¬ (lo ≤ k ∧ k ≤ hi)) :
    b k = a k := by
  obtain ⟨σ, hσ, rfl⟩ := h
  exact congrArg a (hσ k hk)

/-- The permutation behind a rearrangement maps the window into itself. -/
theorem perm_mem_window {lo hi : Int} {σ : Equiv.Perm Int}
    (hσ : ∀ k, ¬ (lo ≤ k ∧ k ≤ hi) → σ k = k) {k : Int}
    (hk : lo ≤ k ∧ k ≤ hi) : lo ≤ σ k ∧ σ k ≤ hi := by
  by_contra hout
  have hfix : σ (σ k) = σ k := hσ (σ k) hout
  rw [σ.injective hfix] at hout
  exact hout hk

/-- A pointwise fact about the whole window survives a rearrangement of it. -/
theorem Rearranged.forall_window {lo hi : Int} {a b : Int → α}
    (h : Rearranged lo hi a b) {P : α → Prop}
    (hP : ∀ k, lo ≤ k → k ≤ hi → P (a k)) :
    ∀ k, lo ≤ k → k ≤ hi → P (b k) := by
  obtain ⟨σ, hσ, rfl⟩ := h
  intro k hlo hhi
  obtain ⟨h₁, h₂⟩ := perm_mem_window hσ ⟨hlo, hhi⟩
  exact hP (σ k) h₁ h₂

/-! ## Counting copies of a value -/

/-- The indices of `[lo, hi]`, as a set that computes. -/
def window (lo hi : Int) : Finset Int :=
  (Finset.range (hi + 1 - lo).toNat).image (fun d : Nat => lo + d)

/-- The window of a range has its offsets. -/
theorem mem_window {lo hi k : Int} : k ∈ window lo hi ↔ lo ≤ k ∧ k ≤ hi := by
  constructor
  · intro hk
    obtain ⟨d, hd, hdk⟩ := Finset.mem_image.mp hk
    have hd' := Finset.mem_range.mp hd
    omega
  · intro hk
    refine Finset.mem_image.mpr ⟨(k - lo).toNat, Finset.mem_range.mpr ?_, ?_⟩
    · omega
    · show lo + ((k - lo).toNat : Int) = k
      omega

variable [DecidableEq α]

/-- The number of cells of `[lo, hi]` holding `v`. -/
def copies (a : Int → α) (v : α) (lo hi : Int) : Nat :=
  ((window lo hi).filter (fun k => a k = v)).card

/-- **COPIES ARE INVARIANT** under rearranging the window. -/
theorem Rearranged.copies_eq {lo hi : Int} {a b : Int → α}
    (h : Rearranged lo hi a b) (v : α) : copies b v lo hi = copies a v lo hi := by
  obtain ⟨σ, hσ, rfl⟩ := h
  refine Finset.card_bij (fun k _ => σ k) ?_ ?_ ?_
  · intro k hk
    obtain ⟨hin, hv⟩ := Finset.mem_filter.mp hk
    have hwin := perm_mem_window hσ (mem_window.mp hin)
    exact Finset.mem_filter.mpr ⟨mem_window.mpr hwin, hv⟩
  · intro k₁ _ k₂ _ heq
    exact σ.injective heq
  · intro k hk
    obtain ⟨hin, hv⟩ := Finset.mem_filter.mp hk
    have hσ' : ∀ k, ¬ (lo ≤ k ∧ k ≤ hi) → σ.symm k = k := by
      intro k hout
      rw [Equiv.symm_apply_eq, hσ k hout]
    have hwin := perm_mem_window hσ' (mem_window.mp hin)
    have hback : σ (σ.symm k) = k := σ.apply_symm_apply k
    refine ⟨σ.symm k, Finset.mem_filter.mpr ⟨mem_window.mpr hwin, ?_⟩, hback⟩
    show a (σ (σ.symm k)) = v
    rw [hback]
    exact hv

/-- Copies in a window only depend on the cells of the window. -/
theorem copies_congr {a b : Int → α} {lo hi : Int}
    (h : ∀ k, lo ≤ k → k ≤ hi → b k = a k) (v : α) :
    copies b v lo hi = copies a v lo hi := by
  refine congrArg Finset.card (Finset.filter_congr ?_)
  intro k hk
  obtain ⟨h₁, h₂⟩ := mem_window.mp hk
  rw [h k h₁ h₂]

/-- Copies pinned to a list of places are at most as many as the places. -/
theorem copies_le_card {a : Int → α} {v : α} {lo hi : Int} (S : Finset Int)
    (h : ∀ k, lo ≤ k → k ≤ hi → a k = v → k ∈ S) :
    copies a v lo hi ≤ S.card := by
  refine Finset.card_le_card ?_
  intro k hk
  obtain ⟨hin, hv⟩ := Finset.mem_filter.mp hk
  obtain ⟨h₁, h₂⟩ := mem_window.mp hin
  exact h k h₁ h₂ hv

/-- If every copy in one window lies in another, the other has as many. -/
theorem copies_le_of_forall {a : Int → α} {v : α} {lo hi lo' hi' : Int}
    (h : ∀ k, lo ≤ k → k ≤ hi → a k = v → lo' ≤ k ∧ k ≤ hi') :
    copies a v lo hi ≤ copies a v lo' hi' := by
  refine copies_le_card ((window lo' hi').filter (fun k => a k = v)) ?_
  intro k h₁ h₂ hv
  exact Finset.mem_filter.mpr ⟨mem_window.mpr (h k h₁ h₂ hv), hv⟩

/-- A part of a window holds no more copies than the window. -/
theorem copies_mono {a : Int → α} {lo hi lo' hi' : Int} (hlo : lo ≤ lo') (hhi : hi' ≤ hi)
    (v : α) : copies a v lo' hi' ≤ copies a v lo hi := by
  refine copies_le_of_forall ?_
  intro k h₁ h₂ _
  exact ⟨hlo.trans h₁, h₂.trans hhi⟩

/-- Distinct places of the window holding `v` are counted by `copies`. -/
theorem card_le_copies {a : Int → α} {v : α} {lo hi : Int} (S : Finset Int)
    (h : ∀ k ∈ S, (lo ≤ k ∧ k ≤ hi) ∧ a k = v) :
    S.card ≤ copies a v lo hi := by
  refine Finset.card_le_card ?_
  intro k hk
  obtain ⟨hin, hv⟩ := h k hk
  exact Finset.mem_filter.mpr ⟨mem_window.mpr hin, hv⟩

/-- The first cell of a window is one copy more than the rest holds. -/
theorem copies_head {a : Int → α} {lo hi : Int} (h : lo ≤ hi) :
    copies a (a lo) lo hi = copies a (a lo) (lo + 1) hi + 1 := by
  have hsplit : window lo hi = insert lo (window (lo + 1) hi) := by
    ext k
    simp only [mem_window, Finset.mem_insert]
    omega
  have hnot : lo ∉ (window (lo + 1) hi).filter (fun k => a k = a lo) := by
    intro hin
    have := mem_window.mp (Finset.mem_filter.mp hin).1
    omega
  unfold copies
  rw [hsplit, Finset.filter_insert, if_pos rfl, Finset.card_insert_of_notMem hnot]

/-! ## The contents of a window as a list -/

/-- The first `n` cells, in order. -/
def contents (a : Int → α) (n : Nat) : List α :=
  (List.range n).map (fun k : Nat => a (k : Int))

omit [DecidableEq α] in
/-- One more element comes last. -/
theorem contents_succ (a : Int → α) (n : Nat) :
    contents a (n + 1) = contents a n ++ [a (n : Int)] := by
  unfold contents
  rw [List.range_succ, List.map_append]
  rfl

/-- Counting in the list is counting in the window. -/
theorem count_contents (a : Int → α) (v : α) (n : Nat) :
    (contents a n).count v = copies a v 0 ((n : Int) - 1) := by
  induction n with
  | zero => rfl
  | succ n ih =>
      have hsplit : window 0 (((n + 1 : Nat) : Int) - 1)
          = insert (n : Int) (window 0 ((n : Int) - 1)) := by
        ext k
        simp only [mem_window, Finset.mem_insert]
        omega
      have hnot : (n : Int) ∉ (window 0 ((n : Int) - 1)).filter (fun k => a k = v) := by
        intro hin
        have := mem_window.mp (Finset.mem_filter.mp hin).1
        omega
      rw [contents_succ, List.count_append, ih]
      unfold copies
      rw [hsplit, Finset.filter_insert]
      by_cases hv : a (n : Int) = v
      · rw [if_pos hv, Finset.card_insert_of_notMem hnot, hv, List.count_singleton_self]
      · rw [if_neg hv, List.count_singleton, if_neg (by simpa using hv), Nat.add_zero]

/-- Rearranging the first `n` cells permutes their list, duplicates counted. -/
theorem Rearranged.contents_perm {n : Nat} {a b : Int → α}
    (h : Rearranged 0 ((n : Int) - 1) a b) :
    (contents b n).Perm (contents a n) := by
  rw [List.perm_iff_count]
  intro v
  rw [count_contents, count_contents, h.copies_eq v]

/-! ## Sorted windows -/

omit [DecidableEq α]

/-- Non-decreasing on `[lo, hi]`. -/
def SortedOn [LE α] (a : Int → α) (lo hi : Int) : Prop :=
  ∀ k l, lo ≤ k → k ≤ l → l ≤ hi → a k ≤ a l

/-- A window of at most one cell is sorted. -/
theorem sortedOn_of_ge [Preorder α] (a : Int → α) {lo hi : Int} (h : hi ≤ lo) :
    SortedOn a lo hi := by
  intro k l h₁ h₂ h₃
  have hkl : k = l := by omega
  rw [hkl]

/-- Sortedness only depends on the cells of the window. -/
theorem SortedOn.congr [LE α] {a b : Int → α} {lo hi : Int}
    (hs : SortedOn a lo hi) (h : ∀ k, lo ≤ k → k ≤ hi → b k = a k) :
    SortedOn b lo hi := by
  intro k l h₁ h₂ h₃
  rw [h k h₁ (by omega), h l (by omega) h₃]
  exact hs k l h₁ h₂ h₃

/-- A sorted window reads as a sorted list. -/
theorem SortedOn.pairwise_contents [LE α] {a : Int → α} {n : Nat}
    (h : SortedOn a 0 ((n : Int) - 1)) : (contents a n).Pairwise (fun x y => x ≤ y) := by
  rw [contents, List.pairwise_map]
  refine List.pairwise_lt_range.imp_of_mem ?_
  intro k l _ hl hkl
  have hl' := List.mem_range.mp hl
  exact h k l (by omega) (by omega) (by omega)

/-- **DIVIDE AND CONQUER**: sorted on both sides of `j`, with `j` an upper
    bound of its left and a lower bound of its right, is sorted. -/
theorem sortedOn_of_split [Preorder α] {a : Int → α} {lo hi j : Int}
    (hl : SortedOn a lo (j - 1)) (hr : SortedOn a (j + 1) hi)
    (hle : ∀ k, lo ≤ k → k ≤ j - 1 → a k ≤ a j)
    (hge : ∀ k, j + 1 ≤ k → k ≤ hi → a j ≤ a k) : SortedOn a lo hi := by
  intro k l h₁ h₂ h₃
  rcases lt_trichotomy k j with hk | hk | hk
  · rcases lt_trichotomy l j with hlj | hlj | hlj
    · exact hl k l h₁ h₂ (by omega)
    · rw [hlj]
      exact hle k h₁ (by omega)
    · exact le_trans (hle k h₁ (by omega)) (hge l (by omega) h₃)
  · rcases lt_or_eq_of_le h₂ with hlt | heq
    · rw [hk]
      exact hge l (by omega) h₃
    · rw [heq]
  · exact hr k l (by omega) h₂ h₃

end CPetSegment
