import Mathlib.Data.Nat.ModEq
import Mathlib.Logic.Function.Basic
import Mathlib.Tactic.Linarith

/-! # Circular buffers with free-running counters

    A ring of `mask + 1 = 2^k` slots is driven by two 32-bit counters that
    only ever increase and wrap at `2^32`: the producer stores at
    `tail & mask` and advances `tail`, the consumer loads from `head & mask`
    and advances `head`.  Empty is `head = tail`, and there is room while
    `tail - head` is below the number of slots.

    The ring is compared with an unbounded LOG of everything ever posted and
    the number of entries taken from it.  `Tracks` says that the entries not
    yet taken stand in consecutive slots from `head` on; posting with room and
    taking when not empty preserve it, whatever the counters. -/

namespace CPetRing

variable {α : Type}

/-- The counters, the mask and the slots. -/
structure RingBuffer (α : Type) where
  head : UInt32
  tail : UInt32
  mask : UInt32
  slots : UInt32 → α

/-- There is a slot for one more entry. -/
def RingBuffer.HasRoom (r : RingBuffer α) : Prop := r.tail - r.head < r.mask + 1

instance (r : RingBuffer α) : Decidable r.HasRoom :=
  inferInstanceAs (Decidable (_ < _))

/-- Store at the tail, and advance it. -/
def RingBuffer.post (r : RingBuffer α) (x : α) : RingBuffer α :=
  { r with
    slots := Function.update r.slots (r.tail &&& r.mask) x
    tail := r.tail + 1 }

/-- The oldest entry. -/
def RingBuffer.front (r : RingBuffer α) : α := r.slots (r.head &&& r.mask)

/-- Give up the oldest entry. -/
def RingBuffer.advance (r : RingBuffer α) : RingBuffer α := { r with head := r.head + 1 }

/-- An empty ring of `2^k` slots, at any counter value. -/
structure RingBuffer.SetUp (r : RingBuffer α) (k : Nat) : Prop where
  empty : r.head = r.tail
  size : r.mask.toNat + 1 = 2 ^ k
  small : k ≤ 31

/-! ## Slots -/

/-- The slot of the `i`-th entry from the head, in plain arithmetic. -/
theorem toNat_slot {mask : UInt32} {k : Nat} (hsize : mask.toNat + 1 = 2 ^ k)
    (hk : k ≤ 31) (x : UInt32) (i : Nat) :
    ((x + UInt32.ofNat i) &&& mask).toNat = (x.toNat + i) % 2 ^ k := by
  have hmask : mask.toNat = 2 ^ k - 1 := by omega
  have hdvd : 2 ^ k ∣ 2 ^ 32 := Nat.pow_dvd_pow 2 (by omega)
  rw [UInt32.toNat_and, hmask, Nat.and_two_pow_sub_one_eq_mod, UInt32.toNat_add,
    UInt32.toNat_ofNat', Nat.add_mod_mod, Nat.mod_mod_of_dvd _ hdvd]

/-- Entries less than a round apart have different slots. -/
theorem slot_inj {mask : UInt32} {k : Nat} (hsize : mask.toNat + 1 = 2 ^ k)
    (hk : k ≤ 31) (x : UInt32) {i j : Nat} (hi : i < 2 ^ k) (hj : j < 2 ^ k)
    (h : (x + UInt32.ofNat i) &&& mask = (x + UInt32.ofNat j) &&& mask) : i = j := by
  have hmod : (x.toNat + i) % 2 ^ k = (x.toNat + j) % 2 ^ k := by
    rw [← toNat_slot hsize hk, ← toNat_slot hsize hk, h]
  have hcancel : i ≡ j [MOD 2 ^ k] := Nat.ModEq.add_left_cancel' x.toNat hmod
  exact Nat.ModEq.eq_of_lt_of_lt hcancel hi hj

/-! ## The log behind a ring -/

/-- The ring holds exactly the entries of the log from the `taken`-th on, in
    consecutive slots from `head` on. -/
structure Tracks (r : RingBuffer α) (k : Nat) (log : List α) (taken : Nat) : Prop where
  size : r.mask.toNat + 1 = 2 ^ k
  small : k ≤ 31
  taken_le : taken ≤ log.length
  length_le : log.length ≤ taken + 2 ^ k
  gap : r.tail = r.head + UInt32.ofNat (log.length - taken)
  held : ∀ i (h : taken + i < log.length),
    r.slots ((r.head + UInt32.ofNat i) &&& r.mask) = log[taken + i]

theorem tracks_setUp {r : RingBuffer α} {k : Nat} (h : r.SetUp k) : Tracks r k [] 0 where
  size := h.size
  small := h.small
  taken_le := Nat.le_refl _
  length_le := Nat.zero_le _
  gap := by rw [h.empty]; simp
  held := by
    intro i hi
    exact absurd hi (Nat.not_lt_zero _)

section Tracked

variable {r : RingBuffer α} {k : Nat} {log : List α} {taken : Nat}

/-- The number of entries waiting fits a counter. -/
theorem Tracks.waiting_lt (h : Tracks r k log taken) :
    log.length - taken < 2 ^ 32 := by
  have hpow : 2 ^ k ≤ 2 ^ 31 := Nat.pow_le_pow_right (by decide) h.small
  have hlen := h.length_le
  omega

/-- The counters' distance is the number of entries waiting. -/
theorem Tracks.distance (h : Tracks r k log taken) :
    (r.tail - r.head).toNat = log.length - taken := by
  rw [h.gap, UInt32.add_comm, UInt32.add_sub_cancel, UInt32.toNat_ofNat']
  exact Nat.mod_eq_of_lt h.waiting_lt

/-- The counters meet exactly when everything has been taken. -/
theorem Tracks.empty_iff (h : Tracks r k log taken) :
    r.head = r.tail ↔ taken = log.length := by
  have hle := h.taken_le
  have hdist := h.distance
  constructor
  · intro heq
    rw [heq, UInt32.sub_self, UInt32.toNat_zero] at hdist
    omega
  · intro heq
    rw [h.gap, heq, Nat.sub_self]
    simp

/-- There is room exactly when fewer entries wait than there are slots. -/
theorem Tracks.hasRoom_iff (h : Tracks r k log taken) :
    r.HasRoom ↔ log.length - taken < 2 ^ k := by
  have hpow : 2 ^ k ≤ 2 ^ 31 := Nat.pow_le_pow_right (by decide) h.small
  have hslots : (r.mask + 1).toNat = 2 ^ k := by
    rw [UInt32.toNat_add, UInt32.toNat_one, h.size]
    exact Nat.mod_eq_of_lt (by omega)
  rw [RingBuffer.HasRoom, UInt32.lt_iff_toNat_lt, h.distance, hslots]

/-- The oldest entry is the next one of the log. -/
theorem Tracks.front (h : Tracks r k log taken) (hlt : taken < log.length) :
    r.front = log[taken] := by
  have hheld := h.held 0 hlt
  simpa [RingBuffer.front] using hheld

/-- **POST**: with room, posting appends to the log and disturbs no entry. -/
theorem tracks_post (h : Tracks r k log taken) (hroom : r.HasRoom) (x : α) :
    Tracks (r.post x) k (log ++ [x]) taken := by
  have hlt := h.hasRoom_iff.mp hroom
  have hle := h.taken_le
  have hlen : (log ++ [x]).length = log.length + 1 := by simp
  refine ⟨h.size, h.small, by omega, by omega, ?_, ?_⟩
  · show r.tail + 1 = r.head + UInt32.ofNat ((log ++ [x]).length - taken)
    rw [h.gap, hlen, Nat.sub_add_comm hle, UInt32.ofNat_add, UInt32.add_assoc]
    rfl
  · intro i hi
    show Function.update r.slots (r.tail &&& r.mask) x
      ((r.head + UInt32.ofNat i) &&& r.mask) = _
    rw [h.gap]
    by_cases hnew : i = log.length - taken
    · -- the slot just written
      subst hnew
      rw [Function.update_self, List.getElem_append_right (by omega)]
      simp
    · have hold : taken + i < log.length := by omega
      rw [Function.update_of_ne, h.held i hold, List.getElem_append_left hold]
      intro heq
      exact hnew (slot_inj h.size h.small r.head (by omega) hlt heq)

/-- **TAKE**: when not empty, advancing the head takes the next entry. -/
theorem tracks_advance (h : Tracks r k log taken) (hlt : taken < log.length) :
    Tracks r.advance k log (taken + 1) := by
  have hle := h.length_le
  refine ⟨h.size, h.small, hlt, by omega, ?_, ?_⟩
  · show r.tail = r.head + 1 + UInt32.ofNat (log.length - (taken + 1))
    rw [h.gap, UInt32.add_assoc]
    congr 1
    rw [show log.length - taken = 1 + (log.length - (taken + 1)) from by omega,
      UInt32.ofNat_add]
    rfl
  · intro i hi
    have hheld := h.held (i + 1) (by omega)
    show r.slots ((r.head + 1 + UInt32.ofNat i) &&& r.mask) = _
    rw [UInt32.add_assoc, show (1 : UInt32) + UInt32.ofNat i = UInt32.ofNat (i + 1) from by
      rw [Nat.add_comm, UInt32.ofNat_add]; rfl, hheld]
    congr 1
    omega

end Tracked

end CPetRing
