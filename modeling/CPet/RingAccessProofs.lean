import CPet.FilesMainProofs

/-! # Accesses to the shared rings

    `prepare_io_uring` computes the sizes of its mappings from the number of
    entries it asks for and from the offsets and the number of completion
    entries that the kernel reports.  `submitToSq` and `readFromCq` then reach
    into the mappings through the pointers stored, at indices that they take
    from the counters and the masks in shared memory.

    So every byte they touch lies in the mapping that its pointer leads into, at
    every value of the counters and in every run, exactly when the masks are
    below the numbers of entries that the sizes were computed from. -/

namespace CPetRingAccess

open CPetRing CPetSubmission CPetCompletion CPetSetup CPetFilesMain

/-! ## Accesses -/

/-- The three parts of a ring that are mapped. -/
inductive Part where
  | sqring
  | sqentries
  | cqring
  deriving DecidableEq

/-- An access to `len` bytes through a pointer into a part. -/
structure Access where
  part : Part
  addr : UInt64
  len : Nat

/-- The mapping of a part, as `prepare_io_uring` asks for it. -/
def partMapping (k : Answers) : Part → Mapping
  | .sqring => ⟨pointer k.sqring, sqringSize k.params, k.fd, ioringOffSqRing⟩
  | .sqentries => ⟨pointer k.sqentries, sqentriesSize, k.fd, ioringOffSqes⟩
  | .cqring => ⟨pointer k.cqring, cqringSize k.params, k.fd, ioringOffCqRing⟩

/-- All bytes of an access lie in the mapping. -/
def Holds (m : Mapping) (a : Access) : Prop :=
  ∀ i, i < a.len → m.Contains (a.addr + UInt64.ofNat i)

/-- The mapping of its part is alive and holds the access. -/
def Held (k : Answers) (p : Process) (a : Access) : Prop :=
  partMapping k a.part ∈ p.mappings ∧ Holds (partMapping k a.part) a

/-- `submitter->sqes[index]` -/
def sqeAccess (s : Submitter) (index : UInt32) : Access :=
  ⟨.sqentries, s.sqes + index.toUInt64 * 64, 64⟩

/-- `submitter->sq_ring.array[index]` -/
def arrayAccess (s : Submitter) (index : UInt32) : Access :=
  ⟨.sqring, s.sqRing.array + index.toUInt64 * 4, 4⟩

/-- `cqring->cqes[index]` -/
def cqeAccess (s : Submitter) (index : UInt32) : Access :=
  ⟨.cqring, s.cqRing.cqes + index.toUInt64 * 16, 16⟩

/-- What `submitToSq` reads and stores in the rings. -/
def submitAccesses (s : Submitter) (ring : SqRing) : List Access :=
  let index := ring.tail &&& ring.ringMask
  [⟨.sqring, s.sqRing.tail, 4⟩, ⟨.sqring, s.sqRing.head, 4⟩, ⟨.sqring, s.sqRing.ringMask, 4⟩,
    sqeAccess s index, arrayAccess s index]

/-- What a step of `readFromCq` reads and stores in the rings. -/
def readAccesses (s : Submitter) (t : Session) : List Access :=
  match t.pc with
  | .wait => [⟨.cqring, s.cqRing.tail, 4⟩, ⟨.cqring, s.cqRing.head, 4⟩]
  | .fetch => [⟨.cqring, s.cqRing.head, 4⟩, ⟨.cqring, s.cqRing.ringMask, 4⟩]
  | .check slot => [cqeAccess s slot]
  | .process slot => [cqeAccess s slot]
  | .advance => [⟨.cqring, s.cqRing.head, 4⟩]
  | .returned => []

/-- What a step of either side has the program access. -/
def eventAccesses (s : Submitter) (t : Session) : Event → List Access
  | .complete _ _ _ => []
  | .read => readAccesses s t

/-- What a run of both sides has the program access. -/
def sessionAccesses (s : Submitter) : List Event → Session → List Access
  | [], _ => []
  | event :: events, t =>
      eventAccesses s t event ++ sessionAccesses s events (sessionStep t event)

/-- What `main` accesses in a run. -/
def mainAccesses (w : World) (events : List Event) : List Access :=
  submitAccesses w.start.process.submitter w.sq
    ++ sessionAccesses w.start.process.submitter events w.start.session

/-! ## Offsets and slots -/

/-- An access that ends inside the length, counted from the base, is held. -/
theorem holds_of_le {m : Mapping} {part : Part} {off : UInt64} {len : Nat}
    (h : off.toNat + len ≤ m.length.toNat) : Holds m ⟨part, m.base + off, len⟩ := by
  intro i hi
  have hi' : i < len := hi
  have hlength := m.length.toNat_lt
  rw [UInt64.add_assoc]
  refine Mapping.contains_add ?_
  rw [UInt64.lt_iff_toNat_lt, UInt64.toNat_add, UInt64.toNat_ofNat']
  omega

/-- A slot of an array of `n` slots at the end of a mapping. -/
theorem holds_slot_iff (m : Mapping) (part : Part) (off : UInt32) {size n : Nat}
    (hsize : 0 < size) (hsmall : size ≤ 64) (hlength : m.length.toNat = off.toNat + n * size)
    (index : UInt32) :
    Holds m ⟨part, m.base + off.toUInt64 + index.toUInt64 * UInt64.ofNat size, size⟩
      ↔ index.toNat < n := by
  have hoff := off.toNat_lt
  have hindex := index.toNat_lt
  have hmul : index.toNat * size ≤ 2 ^ 32 * 64 := Nat.mul_le_mul hindex.le hsmall
  -- neither the product nor the sum wraps
  have hslot : (off.toUInt64 + index.toUInt64 * UInt64.ofNat size).toNat
      = off.toNat + index.toNat * size := by
    rw [UInt64.toNat_add, UInt64.toNat_mul, UInt64.toNat_ofNat', UInt32.toNat_toUInt64,
      UInt32.toNat_toUInt64, Nat.mod_eq_of_lt (by omega : size < 2 ^ 64),
      Nat.mod_eq_of_lt (by omega : index.toNat * size < 2 ^ 64)]
    exact Nat.mod_eq_of_lt (by omega)
  rw [UInt64.add_assoc]
  constructor
  · intro h
    have hfirst := h 0 hsize
    rw [Mapping.Contains, show UInt64.ofNat 0 = 0 from rfl, UInt64.add_zero, UInt64.add_comm,
      UInt64.add_sub_cancel, UInt64.lt_iff_toNat_lt, hslot, hlength] at hfirst
    exact Nat.lt_of_mul_lt_mul_right (Nat.lt_of_add_lt_add_left hfirst)
  · intro hlt
    refine holds_of_le ?_
    have hslots : (index.toNat + 1) * size ≤ n * size := Nat.mul_le_mul_right size hlt
    rw [hslot, hlength]
    rw [Nat.succ_mul] at hslots
    omega

/-- Masked counters stay below a bound exactly when the mask does. -/
theorem masked_lt_iff {mask : UInt32} {n : Nat} :
    (∀ x : UInt32, (x &&& mask).toNat < n) ↔ mask.toNat < n := by
  constructor
  · intro h
    have hself := h mask
    rwa [UInt32.and_self] at hself
  · intro h x
    rw [UInt32.toNat_and]
    exact Nat.and_le_right.trans_lt h

/-! ## The submitter that `main` uses -/

/-- The counters and the masks lie inside the sizes, with all four bytes. -/
def WordsInside (params : IoUringParams) : Prop :=
  (∀ off ∈ [params.sqOff.head, params.sqOff.tail, params.sqOff.ringMask],
      off.toNat + 4 ≤ (sqringSize params).toNat)
    ∧ ∀ off ∈ [params.cqOff.head, params.cqOff.tail, params.cqOff.ringMask],
      off.toNat + 4 ≤ (cqringSize params).toNat

/-- The ring of submissions is mapped up to the end of its index array, -/
theorem toNat_sqringSize (params : IoUringParams) :
    (sqringSize params).toNat = params.sqOff.array.toNat + entries.toNat * 4 := by
  have hoff := params.sqOff.array.toNat_lt
  rw [sqringSize, UInt64.toNat_add, UInt32.toNat_toUInt64]
  exact Nat.mod_eq_of_lt (Nat.add_lt_add_of_lt_of_le hoff (by decide : _ ≤ 4) |>.trans (by decide))

/-- and the ring of completions up to the end of its entries. -/
theorem toNat_cqringSize (params : IoUringParams) :
    (cqringSize params).toNat = params.cqOff.cqes.toNat + params.cqEntries.toNat * 16 := by
  have hoff := params.cqOff.cqes.toNat_lt
  have hentries := params.cqEntries.toNat_lt
  rw [cqringSize, UInt64.toNat_add, UInt64.toNat_mul, UInt32.toNat_toUInt64,
    UInt32.toNat_toUInt64, show (16 : UInt64).toNat = 16 from rfl,
    Nat.mod_eq_of_lt (by omega : params.cqEntries.toNat * 16 < 2 ^ 64)]
  exact Nat.mod_eq_of_lt (by omega)

/-- With the rings set up, the submitter points into the three mappings, and these
    are alive. -/
theorem start_submitter {w : World} (h : w.Ready) :
    w.start.process.submitter
        = fillSubmitter w.answers.fd w.answers.params (pointer w.answers.sqring)
          (pointer w.answers.sqentries) (pointer w.answers.cqring)
      ∧ ∀ part, partMapping w.answers part ∈ w.start.process.mappings := by
  have hfd : ¬ w.answers.fd < 0 := Int.not_lt.mpr h.fd
  rcases prepareIoUring_cases w.opening hfd with ⟨hnoticed, -⟩ | ⟨-, hr⟩
  · exact absurd hnoticed h.mapped.not_noticed
  have hmapped := allMapped_eq_true.mpr (pointers_mapped h.mapped h.offsets hr)
  have hprocess : w.start.process.submitter = (prepareIoUring w.answers w.opening).2.submitter
      ∧ w.start.process.mappings = (prepareIoUring w.answers w.opening).2.mappings := by
    simp only [World.start, hr.ret, hmapped, ne_eq, not_true_eq_false, if_false,
      Bool.true_eq_false, and_self]
  refine ⟨hprocess.1.trans hr.submitter, ?_⟩
  obtain ⟨sqring, hsq, -⟩ := h.mapped w.answers.sqring (by simp [Answers.maps])
  obtain ⟨sqentries, hse, -⟩ := h.mapped w.answers.sqentries (by simp [Answers.maps])
  obtain ⟨cqring, hcq, -⟩ := h.mapped w.answers.cqring (by simp [Answers.maps])
  intro part
  rw [hprocess.2, hr.mappings]
  refine List.mem_append_left _ ?_
  cases part with
  | sqring => simp [partMapping, obtained, pointer, hsq]
  | sqentries => simp [partMapping, obtained, pointer, hse]
  | cqring => simp [partMapping, obtained, pointer, hcq]

section Ready

variable {w : World}

/-- A word of the submission ring. -/
theorem held_sqWord (h : w.Ready) (hwords : WordsInside w.answers.params) {off : UInt32}
    (hoff : off ∈ [w.answers.params.sqOff.head, w.answers.params.sqOff.tail,
      w.answers.params.sqOff.ringMask]) :
    Held w.answers w.start.process
      ⟨.sqring, pointer w.answers.sqring + off.toUInt64, 4⟩ := by
  refine ⟨(start_submitter h).2 _, holds_of_le ?_⟩
  rw [UInt32.toNat_toUInt64]
  exact hwords.1 off hoff

/-- A word of the completion ring. -/
theorem held_cqWord (h : w.Ready) (hwords : WordsInside w.answers.params) {off : UInt32}
    (hoff : off ∈ [w.answers.params.cqOff.head, w.answers.params.cqOff.tail,
      w.answers.params.cqOff.ringMask]) :
    Held w.answers w.start.process
      ⟨.cqring, pointer w.answers.cqring + off.toUInt64, 4⟩ := by
  refine ⟨(start_submitter h).2 _, holds_of_le ?_⟩
  rw [UInt32.toNat_toUInt64]
  exact hwords.2 off hoff

/-- A submission entry is in its mapping exactly below the number of entries, -/
theorem held_sqe_iff (h : w.Ready) (index : UInt32) :
    Held w.answers w.start.process (sqeAccess w.start.process.submitter index)
      ↔ index.toNat < entries.toNat := by
  have hlength : (partMapping w.answers .sqentries).length.toNat
      = (0 : UInt32).toNat + entries.toNat * 64 := rfl
  have hslot := holds_slot_iff (partMapping w.answers .sqentries) .sqentries 0 (by decide)
    (by decide) hlength index
  rw [show (0 : UInt32).toUInt64 = 0 from rfl, UInt64.add_zero] at hslot
  rw [← hslot, sqeAccess, (start_submitter h).1]
  exact and_iff_right ((start_submitter h).2 .sqentries)

/-- an index of the array likewise, -/
theorem held_array_iff (h : w.Ready) (index : UInt32) :
    Held w.answers w.start.process (arrayAccess w.start.process.submitter index)
      ↔ index.toNat < entries.toNat := by
  rw [← holds_slot_iff (partMapping w.answers .sqring) .sqring _ (by decide : 0 < 4)
    (by decide) (toNat_sqringSize w.answers.params) index, arrayAccess, (start_submitter h).1]
  exact and_iff_right ((start_submitter h).2 .sqring)

/-- and a completion below the number that the kernel has set up. -/
theorem held_cqe_iff (h : w.Ready) (index : UInt32) :
    Held w.answers w.start.process (cqeAccess w.start.process.submitter index)
      ↔ index.toNat < w.answers.params.cqEntries.toNat := by
  rw [← holds_slot_iff (partMapping w.answers .cqring) .cqring _ (by decide : 0 < 16)
    (by decide) (toNat_cqringSize w.answers.params) index, cqeAccess, (start_submitter h).1]
  exact and_iff_right ((start_submitter h).2 .cqring)

/-- The accesses of `submitToSq` are held when its index is that of an entry. -/
theorem held_submitAccesses_iff (h : w.Ready) (hwords : WordsInside w.answers.params)
    (ring : SqRing) :
    (∀ a ∈ submitAccesses w.start.process.submitter ring, Held w.answers w.start.process a)
      ↔ (ring.tail &&& ring.ringMask).toNat < entries.toNat := by
  have hwords' := hwords.1
  simp only [List.forall_mem_cons] at hwords'
  constructor
  · intro hall
    exact (held_array_iff h _).mp (hall _ (by simp [submitAccesses]))
  · intro hindex
    simp only [submitAccesses, List.forall_mem_cons]
    refine ⟨?_, ?_, ?_, (held_sqe_iff h _).mpr hindex, (held_array_iff h _).mpr hindex, by simp⟩
    · rw [(start_submitter h).1]
      exact held_sqWord h hwords (by simp)
    · rw [(start_submitter h).1]
      exact held_sqWord h hwords (by simp)
    · rw [(start_submitter h).1]
      exact held_sqWord h hwords (by simp)

/-! ## Runs -/

/-- The reader stands at a slot of the ring, if at any. -/
def SlotBelow (n : Nat) (t : Session) : Prop :=
  t.cq.mask.toNat < n ∧ ∀ slot, t.pc = .check slot ∨ t.pc = .process slot → slot.toNat < n

/-- **STEP**: whatever the counters are, the reader stays at slots of the ring. -/
theorem slotBelow_step {n : Nat} {t : Session} (h : SlotBelow n t) (event : Event) :
    SlotBelow n (sessionStep t event) := by
  cases event with
  | complete sqe bytes res =>
      rw [sessionStep, complete]
      split
      · exact h
      · exact h
  | read =>
      obtain ⟨hmask, hslot⟩ := h
      have hnone : ∀ {t' : Session}, t'.cq.mask = t.cq.mask → (∀ slot, t'.pc ≠ .check slot) →
          (∀ slot, t'.pc ≠ .process slot) → SlotBelow n t' := by
        intro t' hsame hcheck hprocess
        refine ⟨hsame ▸ hmask, ?_⟩
        rintro slot (hpc | hpc)
        · exact absurd hpc (hcheck slot)
        · exact absurd hpc (hprocess slot)
      show SlotBelow n (readStep t)
      generalize readStep t = t', readMove t = hmove
      cases hmove with
      | spin hpc hempty => exact ⟨hmask, hslot⟩
      | leave hpc hmore => exact hnone rfl (by simp) (by simp)
      | fetch hpc =>
          refine ⟨hmask, ?_⟩
          rintro slot (hpc' | hpc')
          · cases hpc'
            exact masked_lt_iff.mpr hmask _
          · cases hpc'
      | fail slot text hpc hres => exact hnone rfl (by simp) (by simp)
      | pass slot hpc hres =>
          refine ⟨hmask, ?_⟩
          rintro slot' (hpc' | hpc')
          · cases hpc'
          · cases hpc'
            exact hslot slot (.inl hpc)
      | process slot hpc => exact hnone rfl (by simp) (by simp)
      | advance hpc => exact hnone rfl (by simp) (by simp)
      | returned hpc => exact ⟨hmask, hslot⟩

/-- The accesses of one step. -/
theorem held_readAccesses (h : w.Ready) (hwords : WordsInside w.answers.params) {t : Session}
    (ht : SlotBelow w.answers.params.cqEntries.toNat t) :
    ∀ a ∈ readAccesses w.start.process.submitter t, Held w.answers w.start.process a := by
  have hhead : Held w.answers w.start.process
      ⟨.cqring, w.start.process.submitter.cqRing.head, 4⟩ := by
    rw [(start_submitter h).1]
    exact held_cqWord h hwords (by simp)
  have htail : Held w.answers w.start.process
      ⟨.cqring, w.start.process.submitter.cqRing.tail, 4⟩ := by
    rw [(start_submitter h).1]
    exact held_cqWord h hwords (by simp)
  have hmask : Held w.answers w.start.process
      ⟨.cqring, w.start.process.submitter.cqRing.ringMask, 4⟩ := by
    rw [(start_submitter h).1]
    exact held_cqWord h hwords (by simp)
  cases hpc : t.pc with
  | wait => simp [readAccesses, hpc, hhead, htail]
  | fetch => simp [readAccesses, hpc, hhead, hmask]
  | check slot =>
      have hslot := (held_cqe_iff h slot).mpr (ht.2 slot (.inl hpc))
      simp [readAccesses, hpc, hslot]
  | process slot =>
      have hslot := (held_cqe_iff h slot).mpr (ht.2 slot (.inr hpc))
      simp [readAccesses, hpc, hslot]
  | advance => simp [readAccesses, hpc, hhead]
  | returned => simp [readAccesses, hpc]

/-- **RUN**: all accesses of the reader are held, by induction on the run. -/
theorem held_sessionAccesses (h : w.Ready) (hwords : WordsInside w.answers.params)
    (events : List Event) :
    ∀ t : Session, SlotBelow w.answers.params.cqEntries.toNat t →
      ∀ a ∈ sessionAccesses w.start.process.submitter events t,
        Held w.answers w.start.process a := by
  induction events with
  | nil =>
      intro t _ a ha
      exact absurd ha List.not_mem_nil
  | cons event events ih =>
      intro t ht a ha
      rcases List.mem_append.mp ha with hnow | hlater
      · cases event with
        | complete sqe bytes res => exact absurd hnow List.not_mem_nil
        | read => exact held_readAccesses h hwords ht a hnow
      · exact ih _ (slotBelow_step ht event) a hlater

end Ready

/-! ## At every value of the counters -/

/-- The same world, with the four counters at other values. -/
def withCounters (w : World) (sqHead sqTail cqHead cqTail : UInt32) : World :=
  { w with
    sq := { w.sq with head := sqHead, tail := sqTail }
    cq := { w.cq with head := cqHead, tail := cqTail } }

/-- All accesses are held, whatever the counters and whatever the run. -/
def AlwaysHeld (w : World) : Prop :=
  ∀ (sqHead sqTail cqHead cqTail : UInt32) (events : List Event),
    ∀ a ∈ mainAccesses (withCounters w sqHead sqTail cqHead cqTail) events,
      Held w.answers (withCounters w sqHead sqTail cqHead cqTail).start.process a

/-- The counters have no part in the setup. -/
theorem ready_withCounters {w : World} (h : w.Ready) (sqHead sqTail cqHead cqTail : UInt32) :
    (withCounters w sqHead sqTail cqHead cqTail).Ready := ⟨h.fd, h.mapped, h.offsets⟩

/-- A reader at a ring that is not empty comes to the slot at the head. -/
theorem cqeAccess_mem (s : Submitter) (cq : RingBuffer Cqe) (memory : CPetIovec.IoMemory)
    (hmore : cq.tail ≠ cq.head) :
    cqeAccess s (cq.head &&& cq.mask)
      ∈ sessionAccesses s [.read, .read, .read] (Session.start cq memory) := by
  have hleave : readStep (Session.start cq memory)
      = { Session.start cq memory with pc := .fetch } := if_neg hmore
  have hthird : sessionAccesses s [.read, .read, .read] (Session.start cq memory)
      = readAccesses s (Session.start cq memory)
        ++ (readAccesses s (readStep (Session.start cq memory))
          ++ (readAccesses s (readStep (readStep (Session.start cq memory))) ++ [])) := rfl
  rw [hthird, hleave]
  refine List.mem_append_right _ (List.mem_append_right _ (List.mem_append_left _ ?_))
  exact List.mem_singleton_self _

section Counters

variable {w : World}

/-- With the tail at the mask, the index of the submission is the mask. -/
theorem AlwaysHeld.ringMask_lt (h : w.Ready) (hwords : WordsInside w.answers.params)
    (hall : AlwaysHeld w) : w.sq.ringMask.toNat < entries.toNat := by
  have hready := ready_withCounters h 0 w.sq.ringMask 0 0
  have hsubmit := (held_submitAccesses_iff hready hwords
    (withCounters w 0 w.sq.ringMask 0 0).sq).mp (fun a ha =>
      hall 0 w.sq.ringMask 0 0 [] a (List.mem_append_left _ ha))
  rw [show (withCounters w 0 w.sq.ringMask 0 0).sq.tail = w.sq.ringMask from rfl,
    show (withCounters w 0 w.sq.ringMask 0 0).sq.ringMask = w.sq.ringMask from rfl,
    UInt32.and_self] at hsubmit
  exact hsubmit

/-- With the head at the mask, and an entry waiting, the reader comes to the last slot. -/
theorem AlwaysHeld.mask_lt (h : w.Ready) (hall : AlwaysHeld w) :
    w.cq.mask.toNat < w.answers.params.cqEntries.toNat := by
  have hready := ready_withCounters h 0 0 w.cq.mask (w.cq.mask + 1)
  have hmore : w.cq.mask + 1 ≠ w.cq.mask := by
    intro heq
    rw [UInt32.add_eq_left] at heq
    exact absurd heq (by decide)
  have hmem := cqeAccess_mem
    (withCounters w 0 0 w.cq.mask (w.cq.mask + 1)).start.process.submitter
    (withCounters w 0 0 w.cq.mask (w.cq.mask + 1)).cq
    (withCounters w 0 0 w.cq.mask (w.cq.mask + 1)).start.session.memory hmore
  have hslot := (held_cqe_iff hready _).mp
    (hall 0 0 w.cq.mask (w.cq.mask + 1) [.read, .read, .read] _
      (List.mem_append_right _ (by
        rw [hready.start.1] at hmem ⊢
        exact hmem)))
  rw [show (withCounters w 0 0 w.cq.mask (w.cq.mask + 1)).cq.head = w.cq.mask from rfl,
    show (withCounters w 0 0 w.cq.mask (w.cq.mask + 1)).cq.mask = w.cq.mask from rfl,
    UInt32.and_self] at hslot
  exact hslot

/-- Masks below the numbers of entries keep every index below them. -/
theorem alwaysHeld_of_masks (h : w.Ready) (hwords : WordsInside w.answers.params)
    (hsq : w.sq.ringMask.toNat < entries.toNat)
    (hcq : w.cq.mask.toNat < w.answers.params.cqEntries.toNat) : AlwaysHeld w := by
  intro sqHead sqTail cqHead cqTail events a ha
  have hready := ready_withCounters h sqHead sqTail cqHead cqTail
  rcases List.mem_append.mp ha with hsubmit | hsession
  · refine (held_submitAccesses_iff hready hwords
      (withCounters w sqHead sqTail cqHead cqTail).sq).mpr ?_ a hsubmit
    exact masked_lt_iff.mpr hsq sqTail
  · refine held_sessionAccesses hready hwords events _ ?_ a hsession
    rw [hready.start.1]
    refine ⟨hcq, ?_⟩
    rintro slot (hpc | hpc)
    · cases hpc
    · cases hpc

end Counters

/-- **ACCESSES**: with the rings set up and their words inside the mappings, every
    access of `main` through the pointers to the rings stays in the live mapping that
    the pointer leads into, at every value of the counters, in every run, if and only
    if both masks are below the numbers of entries that the sizes count. -/
theorem main_accesses_held_iff {w : World} (h : w.Ready) (hwords : WordsInside w.answers.params) :
    AlwaysHeld w ↔ w.sq.ringMask.toNat < entries.toNat
      ∧ w.cq.mask.toNat < w.answers.params.cqEntries.toNat := by
  constructor
  · intro hall
    exact ⟨hall.ringMask_lt h hwords, hall.mask_lt h⟩
  · rintro ⟨hsq, hcq⟩
    exact alwaysHeld_of_masks h hwords hsq hcq

theorem wordsInside_smallWorld : WordsInside smallWorld.answers.params := by
  constructor
  · refine List.forall_mem_cons.mpr ⟨by decide, List.forall_mem_cons.mpr ⟨by decide, ?_⟩⟩
    exact List.forall_mem_singleton.mpr (by decide)
  · refine List.forall_mem_cons.mpr ⟨by decide, List.forall_mem_cons.mpr ⟨by decide, ?_⟩⟩
    exact List.forall_mem_singleton.mpr (by decide)

theorem main_accesses_held_iff_small :
    AlwaysHeld smallWorld ↔ smallWorld.sq.ringMask.toNat < entries.toNat
      ∧ smallWorld.cq.mask.toNat < smallWorld.answers.params.cqEntries.toNat :=
  main_accesses_held_iff smallWorld_ready wordsInside_smallWorld

end CPetRingAccess
