import CPet.MemoryProofs
import Mathlib.Data.List.Perm.Basic

/-! # Who owns the live blocks of a heap

    The live addresses of a heap are split in two: those that were there
    already or that nobody looks after any more (the BASE, a predicate), and
    those that somebody still has to free (the OWNED, a list).  Allocating
    adds to the owned addresses, freeing takes owned addresses away, and
    losing the last pointer to a block moves its address into the base: that
    is a leak. -/

namespace CPetOwnership

open CPetMemory

variable {β : Type}

/-- The live addresses are those of the base and, apart from them and from
    each other, the owned ones. -/
structure Owns (heap : Heap β) (base : Nat → Prop) (owned : List Nat) : Prop where
  live : ∀ a, (heap.live a).isSome ↔ base a ∨ a ∈ owned
  apart : ∀ a ∈ owned, ¬ base a
  distinct : owned.Nodup

/-- Before anything is allocated, all that lives is the base. -/
theorem owns_start (heap : Heap β) : Owns heap (fun a => (heap.live a).isSome) [] where
  live := by simp
  apart := by simp
  distinct := List.nodup_nil

section Owned

variable {heap heap' : Heap β} {base : Nat → Prop} {owned owned' : List Nat}

theorem Owns.isSome (h : Owns heap base owned) {a : Nat} (ha : a ∈ owned) :
    (heap.live a).isSome := (h.live a).mpr (Or.inr ha)

/-- Owned addresses have been handed out. -/
theorem Owns.lt_next (h : Owns heap base owned) {a : Nat} (ha : a ∈ owned) :
    a < heap.next := by
  refine Nat.lt_of_not_le ?_
  intro hle
  have hlive := h.isSome ha
  rw [heap.fresh a hle] at hlive
  exact Bool.noConfusion hlive

/-- The order of the owned addresses does not matter. -/
theorem Owns.perm (h : Owns heap base owned) (hp : owned.Perm owned') :
    Owns heap base owned' where
  live := by
    intro a
    rw [h.live, hp.mem_iff]
  apart := by
    intro a ha
    exact h.apart a (hp.mem_iff.mpr ha)
  distinct := hp.nodup_iff.mp h.distinct

/-- Only which addresses live matters. -/
theorem Owns.congr (h : Owns heap base owned)
    (hlive : ∀ a, (heap'.live a).isSome = (heap.live a).isSome) :
    Owns heap' base owned where
  live := by
    intro a
    rw [hlive, h.live]
  apart := h.apart
  distinct := h.distinct

/-- **FREE**: freeing owned addresses leaves the others owned. -/
theorem Owns.freeAll {as : List Nat} (h : Owns heap base (as ++ owned)) :
    Owns (heap.freeAll as) base owned where
  live := by
    intro a
    rw [freeAll_live]
    by_cases ha : a ∈ as
    · -- freed, hence neither of the base nor among the others
      have hbase := h.apart a (List.mem_append_left _ ha)
      have hother := (List.nodup_append.mp h.distinct).2.2 a ha
      simp only [if_pos ha, Option.isSome_none, Bool.false_eq_true, false_iff, not_or]
      exact ⟨hbase, fun hmem => hother a hmem rfl⟩
    · rw [if_neg ha, h.live, List.mem_append]
      simp [ha]
  apart := by
    intro a ha
    exact h.apart a (List.mem_append_right _ ha)
  distinct := (List.nodup_append.mp h.distinct).2.1

/-- **LEAK**: a block nobody points to any more joins the base. -/
theorem Owns.leak {a : Nat} (h : Owns heap base (a :: owned)) :
    Owns heap (fun x => base x ∨ x = a) owned where
  live := by
    intro x
    rw [h.live, List.mem_cons, or_assoc]
  apart := by
    rintro x hx (hbase | rfl)
    · exact h.apart x (List.mem_cons_of_mem _ hx) hbase
    · exact (List.nodup_cons.mp h.distinct).1 hx
  distinct := (List.nodup_cons.mp h.distinct).2

/-- **ALLOCATE ONE**: a block at an address where nothing lived is owned too. -/
theorem Owns.insert {a : Nat} (h : Owns heap base owned) (hdead : heap.live a = none)
    (hlive : (heap'.live a).isSome) (hold : ∀ x, x ≠ a → heap'.live x = heap.live x) :
    Owns heap' base (a :: owned) where
  live := by
    intro x
    rw [List.mem_cons]
    by_cases hx : x = a
    · rw [hx]
      simp [hlive]
    · rw [hold x hx, h.live]
      simp [hx]
  apart := by
    intro x hx hbase
    rcases List.mem_cons.mp hx with rfl | hmem
    · have hsome := (h.live x).mpr (Or.inl hbase)
      rw [hdead] at hsome
      exact Bool.noConfusion hsome
    · exact h.apart x hmem hbase
  distinct := by
    refine List.nodup_cons.mpr ⟨?_, h.distinct⟩
    intro hmem
    have hsome := h.isSome hmem
    rw [hdead] at hsome
    exact Bool.noConfusion hsome

/-- **ALLOCATE**: new blocks at new addresses are owned too. -/
theorem Owns.grow {new : List Nat} (h : Owns heap base owned)
    (hnew : ∀ a, a ∈ new ↔ heap.next ≤ a ∧ a < heap'.next) (hnodup : new.Nodup)
    (hlive : ∀ a ∈ new, (heap'.live a).isSome)
    (hold : ∀ a, a < heap.next → heap'.live a = heap.live a) :
    Owns heap' base (owned ++ new) where
  live := by
    intro a
    rw [List.mem_append, ← or_assoc, ← h.live]
    by_cases ha : a < heap.next
    · have hmem : a ∉ new := fun hmem => absurd ((hnew a).mp hmem).1 (Nat.not_le.mpr ha)
      simp [hold a ha, hmem]
    · by_cases hmem : a ∈ new
      · simp [hlive a hmem, hmem]
      · -- above everything handed out, then and now
        have htop : heap'.next ≤ a := by
          rw [hnew] at hmem
          omega
        simp [heap.fresh a (Nat.not_lt.mp ha), heap'.fresh a htop, hmem]
  apart := by
    intro a ha
    rcases List.mem_append.mp ha with hmem | hmem
    · exact h.apart a hmem
    · intro hbase
      -- what lived before is older than the new addresses
      have hsome := (h.live a).mpr (Or.inl hbase)
      rw [heap.fresh a ((hnew a).mp hmem).1] at hsome
      exact Bool.noConfusion hsome
  distinct := by
    refine List.nodup_append.mpr ⟨h.distinct, hnodup, ?_⟩
    rintro a ha b hb rfl
    exact absurd (h.lt_next ha) (Nat.not_lt.mpr ((hnew a).mp hb).1)

end Owned

end CPetOwnership
