import Mathlib.Logic.Function.Basic
import Mathlib.Data.List.Basic

/-! # Memory objects and a heap of them

    An object is its size together with what a load at every offset delivers;
    a pointer that a function merely receives is just the second half.  Loads
    and stores are not confined to the object: whether an offset was inside
    it is a question about `size`, asked separately.

    A heap maps addresses to live objects of any kind.  Addresses are handed
    out in increasing order, and the structure carries the proof that nothing
    lives above the next one, so a fresh address is fresh by construction. -/

namespace CPetMemory

variable {α β : Type}

/-! ## Cells behind a pointer -/

/-- The first `n` cells behind a pointer. -/
def cells (f : Nat → α) (n : Nat) : List α :=
  (List.range n).map f

/-- There are as many as were asked for. -/
@[simp] theorem length_cells (f : Nat → α) (n : Nat) : (cells f n).length = n := by
  simp [cells]

@[simp] theorem getElem_cells (f : Nat → α) {n i : Nat} (h : i < (cells f n).length) :
    (cells f n)[i] = f i := by
  simp [cells]

/-- The first cell and the rest. -/
theorem cells_succ (f : Nat → α) (n : Nat) :
    cells f (n + 1) = f 0 :: cells (fun k => f (k + 1)) n := by
  simp [cells, List.range_succ_eq_map, Function.comp_def]

/-- Cells split where one wants them to. -/
theorem cells_add (f : Nat → α) (n m : Nat) :
    cells f (n + m) = cells f n ++ cells (fun k => f (n + k)) m := by
  simp [cells, List.range_add, Function.comp_def]

/-- Only the cells listed count. -/
theorem cells_congr {f g : Nat → α} {n : Nat} (h : ∀ k, k < n → f k = g k) :
    cells f n = cells g n := by
  refine List.map_congr_left ?_
  intro k hk
  exact h k (List.mem_range.mp hk)

/-- What is among the first cells lies at one of their offsets. -/
theorem mem_cells {f : Nat → α} {n : Nat} {x : α} :
    x ∈ cells f n ↔ ∃ k, k < n ∧ f k = x := by
  simp [cells]

/-! ## Objects -/

/-- A memory object of `size` cells. -/
structure Block (α : Type) where
  size : Nat
  cell : Nat → α

/-- One store at an offset. -/
def Block.store (b : Block α) (k : Nat) (v : α) : Block α :=
  { b with cell := Function.update b.cell k v }

/-- Consecutive stores from an offset on. -/
def Block.storeList (b : Block α) : Nat → List α → Block α
  | _, [] => b
  | k, v :: vs => (b.store k v).storeList (k + 1) vs

/-- The object grown or shrunk to `n` cells: old contents first, then
    whatever the allocator left behind. -/
def Block.resize (b : Block α) (n : Nat) (stale : Nat → α) : Block α :=
  ⟨n, fun k => if k < b.size then b.cell k else stale k⟩

/-- A store is seen where it was made, -/
@[simp] theorem store_cell_self (b : Block α) (k : Nat) (v : α) :
    (b.store k v).cell k = v := by
  simp [Block.store]

/-- and nowhere else. -/
theorem store_cell_of_ne (b : Block α) {k i : Nat} (v : α) (h : i ≠ k) :
    (b.store k v).cell i = b.cell i := by
  simp [Block.store, h]

/-- Stores do not change the size of a block. -/
@[simp] theorem storeList_size (vs : List α) :
    ∀ (b : Block α) (k : Nat), (b.storeList k vs).size = b.size := by
  induction vs with
  | nil => intro b k; rfl
  | cons v vs ih => intro b k; exact ih (b.store k v) (k + 1)

/-- Consecutive stores change only the cells they cover. -/
theorem storeList_cell_of_outside (vs : List α) :
    ∀ (b : Block α) (k i : Nat), (i < k ∨ k + vs.length ≤ i) →
      (b.storeList k vs).cell i = b.cell i := by
  induction vs with
  | nil => intro b k i _; rfl
  | cons v vs ih =>
      intro b k i hi
      have hlen : (v :: vs).length = vs.length + 1 := rfl
      show ((b.store k v).storeList (k + 1) vs).cell i = b.cell i
      rw [ih (b.store k v) (k + 1) i (by omega)]
      exact store_cell_of_ne b v (by omega)

/-- The cells covered hold the stored list. -/
theorem storeList_cell (vs : List α) :
    ∀ (b : Block α) (k i : Nat) (h : i < vs.length),
      (b.storeList k vs).cell (k + i) = vs[i] := by
  induction vs with
  | nil => intro b k i h; exact nomatch h
  | cons v vs ih =>
      intro b k i h
      show ((b.store k v).storeList (k + 1) vs).cell (k + i) = (v :: vs)[i]
      cases i with
      | zero =>
          rw [storeList_cell_of_outside vs _ _ _ (Or.inl (by omega))]
          simp
      | succ i =>
          have hi : i < vs.length := Nat.lt_of_succ_lt_succ h
          rw [show k + (i + 1) = k + 1 + i from by omega, ih (b.store k v) (k + 1) i hi]
          rfl

/-- What is stored at the front is read back from there. -/
theorem cells_storeList (b : Block α) (vs : List α) :
    cells (b.storeList 0 vs).cell vs.length = vs := by
  refine List.ext_getElem (by simp) ?_
  intro i h₁ h₂
  rw [getElem_cells, ← storeList_cell vs b 0 i h₂, Nat.zero_add]

@[simp] theorem store_size (b : Block α) (k : Nat) (v : α) : (b.store k v).size = b.size := rfl

@[simp] theorem resize_size (b : Block α) (n : Nat) (stale : Nat → α) :
    (b.resize n stale).size = n := rfl

/-- What was in the block before is kept by `realloc`. -/
theorem resize_cell_of_lt (b : Block α) (n : Nat) (stale : Nat → α) {k : Nat}
    (h : k < b.size) : (b.resize n stale).cell k = b.cell k := if_pos h

/-! ## The heap -/

/-- A heap of objects of type `β`, with nothing live from `next` on. -/
structure Heap (β : Type) where
  live : Nat → Option β
  next : Nat
  fresh : ∀ a, next ≤ a → live a = none

/-- The heap before any allocation. -/
def Heap.empty : Heap β := ⟨fun _ => none, 0, fun _ _ => rfl⟩

/-- Allocate an object at the next address. -/
def Heap.alloc (h : Heap β) (b : β) : Nat × Heap β :=
  (h.next, {
    live := Function.update h.live h.next (some b)
    next := h.next + 1
    fresh := by
      intro a ha
      rw [Function.update_of_ne (by omega)]
      exact h.fresh a (by omega) })

/-- Release the object at an address. -/
def Heap.free (h : Heap β) (a : Nat) : Heap β where
  live := Function.update h.live a none
  next := h.next
  fresh := by
    intro a' ha
    by_cases heq : a' = a
    · rw [heq, Function.update_self]
    · rw [Function.update_of_ne heq]
      exact h.fresh a' ha

/-- Release the objects at some addresses, one after the other. -/
def Heap.freeAll (h : Heap β) (as : List Nat) : Heap β := as.foldl Heap.free h

/-- Change the object at an address, if one lives there. -/
def Heap.modify (h : Heap β) (a : Nat) (f : β → β) : Heap β where
  live := Function.update h.live a ((h.live a).map f)
  next := h.next
  fresh := by
    intro a' ha
    by_cases heq : a' = a
    · rw [heq, Function.update_self, h.fresh a (heq ▸ ha)]
      rfl
    · rw [Function.update_of_ne heq]
      exact h.fresh a' ha

/-- Heaps with the same objects and the same next address are the same. -/
theorem heap_ext {h h' : Heap β} (hlive : ∀ a, h.live a = h'.live a) (hnext : h.next = h'.next) :
    h = h' := by
  obtain ⟨live, next, fresh⟩ := h
  obtain ⟨live', next', fresh'⟩ := h'
  obtain rfl : live = live' := funext hlive
  obtain rfl : next = next' := hnext
  rfl

@[simp] theorem alloc_next (h : Heap β) (b : β) : (h.alloc b).2.next = h.next + 1 := rfl

@[simp] theorem modify_next (h : Heap β) (a : Nat) (f : β → β) :
    (h.modify a f).next = h.next := rfl

/-- A new object is live at the address handed out, -/
@[simp] theorem alloc_live_self (h : Heap β) (b : β) :
    (h.alloc b).2.live h.next = some b := Function.update_self _ _ _

/-- and all others are as they were. -/
theorem alloc_live_of_ne (h : Heap β) (b : β) {a : Nat} (ha : a ≠ h.next) :
    (h.alloc b).2.live a = h.live a := Function.update_of_ne ha _ _

/-- Freeing an object leaves the others alone. -/
theorem free_live_of_ne (h : Heap β) {a a' : Nat} (ha : a' ≠ a) :
    (h.free a).live a' = h.live a' := Function.update_of_ne ha _ _

/-- An object is live after a `free` unless it is the one freed. -/
theorem free_live (h : Heap β) (a a' : Nat) :
    (h.free a).live a' = if a' = a then none else h.live a' := by
  by_cases ha : a' = a
  · rw [if_pos ha, ha]
    exact Function.update_self _ _ _
  · rw [if_neg ha]
    exact free_live_of_ne h ha

/-- Releasing a list of addresses ends the listed objects and no other. -/
theorem freeAll_live (as : List Nat) :
    ∀ (h : Heap β) (a : Nat),
      (h.freeAll as).live a = if a ∈ as then none else h.live a := by
  induction as with
  | nil => intro h a; simp [Heap.freeAll]
  | cons b bs ih =>
      intro h a
      show ((h.free b).freeAll bs).live a = _
      rw [ih, free_live]
      by_cases hmem : a ∈ bs
      · rw [if_pos hmem, if_pos (List.mem_cons_of_mem _ hmem)]
      · by_cases hb : a = b
        · simp [hb]
        · simp [hmem, hb]

/-- A change is seen in the object changed, -/
@[simp] theorem modify_live_self (h : Heap β) (a : Nat) (f : β → β) :
    (h.modify a f).live a = (h.live a).map f := Function.update_self _ _ _

/-- and in no other. -/
theorem modify_live_of_ne (h : Heap β) {a a' : Nat} (f : β → β) (ha : a' ≠ a) :
    (h.modify a f).live a' = h.live a' := Function.update_of_ne ha _ _

/-- Changes at two addresses can be made in either order. -/
theorem modify_free (h : Heap β) {a a' : Nat} (f : β → β) (ha : a' ≠ a) :
    (h.free a).modify a' f = (h.modify a' f).free a := by
  refine heap_ext ?_ rfl
  intro x
  by_cases hx : x = a'
  · rw [hx, modify_live_self, free_live_of_ne h ha, free_live_of_ne _ ha, modify_live_self]
  · rw [modify_live_of_ne _ f hx, free_live, free_live, modify_live_of_ne h f hx]

end CPetMemory
