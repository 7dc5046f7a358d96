import Mathlib.Data.Multiset.AddSub
import Mathlib.Data.Multiset.Count
import Mathlib.Order.Bounds.Basic
import Mathlib.Tactic.Common

/-! # The two largest elements of a multiset

    The largest element, and the largest of what is left when one occurrence
    of it is taken out: equal values count separately.  They are unique, exist
    as soon as there are two elements, and one more element changes them by
    two comparisons. -/

namespace CPetTopTwo

variable {α : Type} [LinearOrder α]

/-- `f` is the largest element of `S`, and `s` the largest of the others. -/
structure TopTwo (S : Multiset α) (f s : α) : Prop where
  first : IsGreatest {x | x ∈ S} f
  second : IsGreatest {x | x ∈ S.erase f} s

/-- Both taken out, what is left is not larger. -/
theorem topTwo_iff {S : Multiset α} {f s : α} :
    TopTwo S f s ↔ ∃ R, S = f ::ₘ s ::ₘ R ∧ s ≤ f ∧ ∀ x ∈ R, x ≤ s := by
  constructor
  · rintro ⟨⟨hf, hfmax⟩, ⟨hs, hsmax⟩⟩
    have hf' : f ∈ S := hf
    have hs' : s ∈ S.erase f := hs
    refine ⟨(S.erase f).erase s, ?_, ?_, ?_⟩
    · rw [Multiset.cons_erase hs', Multiset.cons_erase hf']
    · exact hfmax (Multiset.mem_of_mem_erase hs')
    · intro x hx
      exact hsmax (Multiset.mem_of_mem_erase hx)
  · rintro ⟨R, rfl, hle, hR⟩
    refine ⟨⟨Multiset.mem_cons_self _ _, ?_⟩, ?_⟩
    · intro x hx
      rcases Multiset.mem_cons.mp hx with rfl | hx
      · exact le_refl x
      rcases Multiset.mem_cons.mp hx with rfl | hx
      · exact hle
      · exact le_trans (hR x hx) hle
    · rw [Multiset.erase_cons_head]
      refine ⟨Multiset.mem_cons_self _ _, ?_⟩
      intro x hx
      rcases Multiset.mem_cons.mp hx with rfl | hx
      · exact le_refl x
      · exact hR x hx

section Pair

variable {S : Multiset α} {f s : α}

theorem TopTwo.le (h : TopTwo S f s) : s ≤ f := by
  obtain ⟨R, -, hle, -⟩ := topTwo_iff.mp h
  exact hle

/-- **UNIQUE**. -/
theorem TopTwo.unique (h : TopTwo S f s) {f' s' : α} (h' : TopTwo S f' s') :
    f = f' ∧ s = s' := by
  have hfirst : f = f' := h.first.unique h'.first
  subst hfirst
  exact ⟨rfl, h.second.unique h'.second⟩

/-- An element not larger than the second changes nothing. -/
theorem TopTwo.cons_of_le (h : TopTwo S f s) {x : α} (hx : x ≤ s) :
    TopTwo (x ::ₘ S) f s := by
  obtain ⟨R, rfl, hle, hR⟩ := topTwo_iff.mp h
  refine topTwo_iff.mpr ⟨x ::ₘ R, ?_, hle, ?_⟩
  · rw [Multiset.cons_swap x f, Multiset.cons_swap x s]
  · intro y hy
    rcases Multiset.mem_cons.mp hy with rfl | hy
    · exact hx
    · exact hR y hy

/-- An element between the two takes the second place. -/
theorem TopTwo.cons_second (h : TopTwo S f s) {x : α} (hs : s ≤ x) (hf : x ≤ f) :
    TopTwo (x ::ₘ S) f x := by
  obtain ⟨R, rfl, -, hR⟩ := topTwo_iff.mp h
  refine topTwo_iff.mpr ⟨s ::ₘ R, Multiset.cons_swap x f _, hf, ?_⟩
  intro y hy
  rcases Multiset.mem_cons.mp hy with rfl | hy
  · exact hs
  · exact le_trans (hR y hy) hs

/-- An element above both takes the first place. -/
theorem TopTwo.cons_first (h : TopTwo S f s) {x : α} (hf : f ≤ x) :
    TopTwo (x ::ₘ S) x f := by
  obtain ⟨R, rfl, hle, hR⟩ := topTwo_iff.mp h
  refine topTwo_iff.mpr ⟨s ::ₘ R, rfl, hf, ?_⟩
  intro y hy
  rcases Multiset.mem_cons.mp hy with rfl | hy
  · exact hle
  · exact le_trans (hR y hy) hle

end Pair

/-- **EXIST**: two elements are enough. -/
theorem exists_topTwo {S : Multiset α} (h : 2 ≤ S.card) : ∃ f s, TopTwo S f s := by
  obtain ⟨R, x, hx⟩ : ∃ R x, S = x ::ₘ R := by
    obtain ⟨x, hmem⟩ := Multiset.card_pos_iff_exists_mem.mp (Nat.lt_of_lt_of_le Nat.two_pos h)
    obtain ⟨R, hR⟩ := Multiset.exists_cons_of_mem hmem
    exact ⟨R, x, hR⟩
  subst hx
  rw [Multiset.card_cons] at h
  -- one element more at a time, starting from two
  induction R using Multiset.induction with
  | empty =>
      rw [Multiset.card_zero] at h
      exact absurd h (by decide)
  | cons y R ih =>
      rw [Multiset.cons_swap]
      by_cases hR : R = 0
      · subst hR
        rcases le_total x y with hle | hle
        · exact ⟨y, x, topTwo_iff.mpr ⟨0, rfl, hle, by simp⟩⟩
        · exact ⟨x, y, topTwo_iff.mpr ⟨0, Multiset.cons_swap y x 0, hle, by simp⟩⟩
      · have hcard : 2 ≤ R.card + 1 :=
          Nat.succ_le_succ (Nat.one_le_iff_ne_zero.mpr (Multiset.card_pos.mpr hR).ne')
        obtain ⟨f, s, htop⟩ := ih hcard
        rcases le_total y s with hle | hge
        · exact ⟨f, s, htop.cons_of_le hle⟩
        rcases le_total y f with hle | hge'
        · exact ⟨f, y, htop.cons_second hge hle⟩
        · exact ⟨y, f, htop.cons_first hge'⟩

/-- **PADDING**: two more copies of `z` change nothing exactly when two elements
    are not below `z`. -/
theorem topTwo_pad_iff {S : Multiset α} {z f s : α} (h : TopTwo (z ::ₘ z ::ₘ S) f s) :
    TopTwo S f s ↔ 2 ≤ S.countP (fun x => z ≤ x) := by
  constructor
  · intro hS
    have hz : z ≤ s := by
      -- taking one element out leaves one of the two copies
      refine h.second.2 ?_
      show z ∈ (z ::ₘ z ::ₘ S).erase f
      by_cases hf : f = z
      · rw [hf, Multiset.erase_cons_head]
        exact Multiset.mem_cons_self _ _
      · rw [Multiset.mem_erase_of_ne (Ne.symm hf)]
        exact Multiset.mem_cons_self _ _
    obtain ⟨R, rfl, hle, -⟩ := topTwo_iff.mp hS
    rw [Multiset.countP_cons_of_pos _ (le_trans hz hle), Multiset.countP_cons_of_pos _ hz]
    exact Nat.le_add_left 2 _
  · intro hcount
    obtain ⟨f', s', hS⟩ := exists_topTwo (le_trans hcount (Multiset.countP_le_card _ S))
    have hz : z ≤ s' := by
      by_contra hlt
      have hlt' := not_le.mp hlt
      -- otherwise only the first place is not below `z`
      obtain ⟨R, rfl, -, hR⟩ := topTwo_iff.mp hS
      have hzero : (s' ::ₘ R).countP (fun x => z ≤ x) = 0 := by
        rw [Multiset.countP_eq_zero]
        intro x hx
        rcases Multiset.mem_cons.mp hx with rfl | hx
        · exact hlt
        · exact not_le.mpr (lt_of_le_of_lt (hR x hx) hlt')
      rw [Multiset.countP_cons, hzero] at hcount
      split at hcount
      · exact absurd hcount (by decide)
      · exact absurd hcount (by decide)
    obtain ⟨hf, hs⟩ := ((hS.cons_of_le hz).cons_of_le hz).unique h
    rw [← hf, ← hs]
    exact hS

end CPetTopTwo
