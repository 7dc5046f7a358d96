import CPet.SubmissionProofs

/-! # What a submitted request looks like in memory

    A request is the header that `user_data` points to, the iovec table that
    the header and the queue entry point to, and the buffers that the table
    points to.  `submitToSq` allocates all of them anew, in one interval of
    addresses, and leaves every older block alone.

    For a size whose block count fits an `int` the table tiles the size.  A
    failed size query is not noticed: it is a negative size, and its request
    goes into the ring like any other. -/

namespace CPetRequest

open CPetMemory CPetTiling CPetBlockPlan CPetSubmission

/-- The blocks behind a queue entry, with the table's contents. -/
structure Request where
  userData : Nat
  addr : Nat
  entries : List IoVec

/-- The addresses of the blocks: header, table, buffers. -/
def Request.blocks (r : Request) : List Nat :=
  r.userData :: r.addr :: r.entries.map IoVec.iovBase

/-- The request stands in the heap, each block apart from the others. -/
structure RequestAt (heap : Heap IoObject) (r : Request) : Prop where
  header : ∃ len : UInt64, len.toNat = r.entries.length
    ∧ heap.live r.userData = some (.iovecArray r.addr len)
  table : heap.live r.addr = some (.iovecs r.entries)
  buffers : ∀ e ∈ r.entries, ∃ block : Block UInt8,
    block.size = e.iovLen.toNat ∧ heap.live e.iovBase = some (.buffer block)
  distinct : r.blocks.Nodup

/-- All blocks of a standing request live. -/
theorem RequestAt.isSome {heap : Heap IoObject} {r : Request} (h : RequestAt heap r) :
    ∀ a ∈ r.blocks, (heap.live a).isSome := by
  intro a ha
  rcases List.mem_cons.mp ha with rfl | ha
  · obtain ⟨len, -, hlive⟩ := h.header
    rw [hlive]
    rfl
  rcases List.mem_cons.mp ha with rfl | ha
  · rw [h.table]
    rfl
  · obtain ⟨e, he, rfl⟩ := List.mem_map.mp ha
    obtain ⟨block, -, hlive⟩ := h.buffers e he
    rw [hlive]
    rfl

/-! ## Allocation of the buffers -/

section Buffers

variable (stale : Nat → Nat → UInt8)

/-- The buffers get consecutive addresses. -/
theorem allocBuffers_bases :
    ∀ (n : Nat) (bytesLeft : UInt64) (heap : Heap IoObject),
      (allocBuffers stale n bytesLeft heap).1.map IoVec.iovBase
        = List.range' heap.next n := by
  intro n
  induction n with
  | zero => intro bytesLeft heap; rfl
  | succ n ih =>
      intro bytesLeft heap
      rw [allocBuffers, List.map_cons, ih, List.range'_succ]
      rfl

/-- As many addresses are used as there are buffers. -/
theorem allocBuffers_next :
    ∀ (n : Nat) (bytesLeft : UInt64) (heap : Heap IoObject),
      (allocBuffers stale n bytesLeft heap).2.next = heap.next + n := by
  intro n
  induction n with
  | zero => intro bytesLeft heap; rfl
  | succ n ih =>
      intro bytesLeft heap
      rw [allocBuffers, ih, alloc_next, Nat.add_assoc, Nat.add_comm 1 n]

/-- Older blocks are left alone. -/
theorem allocBuffers_live_of_lt :
    ∀ (n : Nat) (bytesLeft : UInt64) (heap : Heap IoObject) {a : Nat},
      a < heap.next → (allocBuffers stale n bytesLeft heap).2.live a = heap.live a := by
  intro n
  induction n with
  | zero => intro bytesLeft heap a _; rfl
  | succ n ih =>
      intro bytesLeft heap a ha
      rw [allocBuffers, ih _ _ (Nat.lt_succ_of_lt ha)]
      exact alloc_live_of_ne heap _ (Nat.ne_of_lt ha)

/-- Each buffer is as long as its iovec says. -/
theorem allocBuffers_live_of_mem :
    ∀ (n : Nat) (bytesLeft : UInt64) (heap : Heap IoObject),
      ∀ e ∈ (allocBuffers stale n bytesLeft heap).1,
        (allocBuffers stale n bytesLeft heap).2.live e.iovBase
          = some (.buffer ⟨e.iovLen.toNat, stale e.iovBase⟩) := by
  intro n
  induction n with
  | zero => intro bytesLeft heap e he; exact nomatch he
  | succ n ih =>
      intro bytesLeft heap e he
      rw [allocBuffers] at he ⊢
      rcases List.mem_cons.mp he with rfl | hrest
      · -- the first buffer is older than the others
        rw [allocBuffers_live_of_lt _ _ _ _ (Nat.lt_succ_self _)]
        exact alloc_live_self heap _
      · exact ih _ _ e hrest

end Buffers

/-! ## The prepared request -/

section Prepare

variable (fd filesize : Int) (stale : Nat → Nat → UInt8) (heap : Heap IoObject)

/-- The iovecs of the request, as allocated after the table. -/
def requestEntries : List IoVec :=
  (allocBuffers stale (blockCnt filesize).toNat (UInt64.ofInt filesize)
    (heap.alloc (.iovecs [])).2).1

/-- The request behind the queue entry that is put together. -/
def preparedRequest : Request :=
  let sqe := (prepareRequest fd filesize stale heap).1
  ⟨sqe.userData, sqe.addr, requestEntries filesize stale heap⟩

/-- The table has an entry for every block, -/
theorem length_requestEntries :
    (requestEntries filesize stale heap).length = (blockCnt filesize).toNat := by
  have hlen := congrArg List.length
    (allocBuffers_lens stale (blockCnt filesize).toNat (UInt64.ofInt filesize)
      (heap.alloc (.iovecs [])).2)
  rwa [List.length_map, length_iovecLens] at hlen

/-- The iovecs have the lengths planned. -/
theorem requestEntries_lens :
    (requestEntries filesize stale heap).map IoVec.iovLen = submitPlan filesize :=
  allocBuffers_lens stale _ _ _

/-- with the buffers at consecutive addresses. -/
theorem requestEntries_bases :
    (requestEntries filesize stale heap).map IoVec.iovBase
      = List.range' (heap.next + 1) (blockCnt filesize).toNat :=
  allocBuffers_bases stale _ _ _

/-- The table is the first block, the buffers follow, the header is the last. -/
theorem preparedRequest_blocks :
    (preparedRequest fd filesize stale heap).blocks
      = (heap.next + 1 + (blockCnt filesize).toNat) :: heap.next
          :: List.range' (heap.next + 1) (blockCnt filesize).toNat := by
  rw [Request.blocks, preparedRequest, requestEntries_bases]
  refine congrArg (fun header => header :: _) ?_
  exact allocBuffers_next stale _ _ (heap.alloc (.iovecs [])).2

/-- Besides the buffers, a request takes a header and a table. -/
theorem prepareRequest_next :
    (prepareRequest fd filesize stale heap).2.next
      = heap.next + (blockCnt filesize).toNat + 2 := by
  show (allocBuffers stale (blockCnt filesize).toNat (UInt64.ofInt filesize)
    (heap.alloc (.iovecs [])).2).2.next + 1 = _
  rw [allocBuffers_next, alloc_next]
  omega

/-- The blocks of the request are exactly the new addresses. -/
theorem mem_preparedRequest_blocks {a : Nat} :
    a ∈ (preparedRequest fd filesize stale heap).blocks
      ↔ heap.next ≤ a ∧ a < (prepareRequest fd filesize stale heap).2.next := by
  rw [preparedRequest_blocks, prepareRequest_next, List.mem_cons, List.mem_cons,
    List.mem_range'_1]
  omega

/-- No two of these are the same object. -/
theorem nodup_preparedRequest_blocks :
    (preparedRequest fd filesize stale heap).blocks.Nodup := by
  rw [preparedRequest_blocks, List.nodup_cons, List.nodup_cons, List.mem_cons,
    List.mem_range'_1, List.mem_range'_1]
  exact ⟨by omega, by omega, List.nodup_range'⟩

/-- Below the header, only the table differs from what the buffers' allocation
    leaves. -/
theorem prepareRequest_live {a : Nat}
    (ha : a < heap.next + 1 + (blockCnt filesize).toNat) :
    (prepareRequest fd filesize stale heap).2.live a
      = ((allocBuffers stale (blockCnt filesize).toNat (UInt64.ofInt filesize)
          (heap.alloc (.iovecs [])).2).2.modify heap.next
            fun _ => .iovecs (requestEntries filesize stale heap)).live a := by
  refine alloc_live_of_ne _ _ ?_
  rw [modify_next, allocBuffers_next]
  exact Nat.ne_of_lt ha

/-- **FRAME**: older blocks are left alone. -/
theorem prepareRequest_live_of_lt {a : Nat} (ha : a < heap.next) :
    (prepareRequest fd filesize stale heap).2.live a = heap.live a := by
  rw [prepareRequest_live fd filesize stale heap (by omega),
    modify_live_of_ne _ _ (Nat.ne_of_lt ha),
    allocBuffers_live_of_lt stale _ _ _ (Nat.lt_succ_of_lt ha)]
  exact alloc_live_of_ne heap _ (Nat.ne_of_lt ha)

/-- **LAYOUT**: header, table and buffers stand in the heap. -/
theorem requestAt_prepareRequest :
    RequestAt (prepareRequest fd filesize stale heap).2
      (preparedRequest fd filesize stale heap) where
  header := ⟨blockCnt filesize, (length_requestEntries filesize stale heap).symm,
    alloc_live_self _ _⟩
  table := by
    show (prepareRequest fd filesize stale heap).2.live heap.next = _
    rw [prepareRequest_live fd filesize stale heap (by omega), modify_live_self,
      allocBuffers_live_of_lt stale _ _ _ (Nat.lt_succ_self _), alloc_live_self]
    rfl
  buffers := by
    intro e he
    have hbase : e.iovBase ∈ List.range' (heap.next + 1) (blockCnt filesize).toNat :=
      requestEntries_bases filesize stale heap ▸ List.mem_map_of_mem he
    rw [List.mem_range'_1] at hbase
    refine ⟨⟨e.iovLen.toNat, stale e.iovBase⟩, rfl, ?_⟩
    rw [prepareRequest_live fd filesize stale heap hbase.2,
      modify_live_of_ne _ _ (by omega)]
    exact allocBuffers_live_of_mem stale _ _ _ e he
  distinct := nodup_preparedRequest_blocks fd filesize stale heap

end Prepare

/-! ## What a call leaves behind -/

section Call

variable (s : IoState) (c : Call)

/-- The request of a call. -/
def callRequest : Request :=
  preparedRequest c.fd (getFileSize c.file).1 c.stale s.heap

/-- The queue entry of a call. -/
def callSqe : Sqe :=
  (prepareRequest c.fd (getFileSize c.file).1 c.stale s.heap).1

theorem callSqe_addr : (callSqe s c).addr = (callRequest s c).addr := rfl

theorem callSqe_userData : (callSqe s c).userData = (callRequest s c).userData := rfl

/-- The kernel takes entries off the ring, and touches neither the heap nor
    what the program writes. -/
theorem ioUringEnter_frame (outcome : EnterOutcome) (s : IoState) :
    (ioUringEnter outcome s).heap = s.heap
      ∧ (ioUringEnter outcome s).submitted = s.submitted
      ∧ (ioUringEnter outcome s).ring.tail = s.ring.tail
      ∧ (ioUringEnter outcome s).ring.sqes = s.ring.sqes := by
  cases outcome with
  | fails => exact ⟨rfl, rfl, rfl, rfl⟩
  | enters consumes =>
      cases consumes with
      | false => exact ⟨rfl, rfl, rfl, rfl⟩
      | true =>
          rw [ioUringEnter]
          by_cases hempty : s.ring.head = s.ring.tail
          · rw [if_pos hempty]
            exact ⟨rfl, rfl, rfl, rfl⟩
          · rw [if_neg hempty]
            exact ⟨rfl, rfl, rfl, rfl⟩

theorem submitToSq_heap :
    (submitToSq s c).heap
      = (prepareRequest c.fd (getFileSize c.file).1 c.stale s.heap).2 :=
  (ioUringEnter_frame c.outcome _).1

/-- One entry is submitted, -/
theorem submitToSq_submitted :
    (submitToSq s c).submitted = s.submitted ++ [callSqe s c] :=
  (ioUringEnter_frame c.outcome _).2.1

/-- the tail moves on by one, -/
theorem submitToSq_tail : (submitToSq s c).ring.tail = s.ring.tail + 1 :=
  (ioUringEnter_frame c.outcome _).2.2.1

/-- and the entry is in the slot that the tail was at. -/
theorem submitToSq_sqes :
    (submitToSq s c).ring.sqes (s.ring.tail &&& s.ring.ringMask) = callSqe s c := by
  rw [submitToSq, (ioUringEnter_frame c.outcome _).2.2.2]
  exact Function.update_self _ _ _

/-- The request of a call stands in the heap after it. -/
theorem requestAt_submitToSq : RequestAt (submitToSq s c).heap (callRequest s c) := by
  rw [submitToSq_heap]
  exact requestAt_prepareRequest _ _ _ _

end Call

/-! ## Sizes whose block count fits -/

/-- A file whose size is known gets as many entries as blocks tile it. -/
theorem callRequest_length {s : IoState} {c : Call} (h0 : 0 ≤ (getFileSize c.file).1)
    (h : (getFileSize c.file).1 < 2 ^ 63) :
    (callRequest s c).entries.length = tileCnt blksize (getFileSize c.file).1.toNat := by
  rw [← toNat_blockCnt h0 h]
  exact length_requestEntries _ _ _

/-- The entry's 32 bits count all iovecs of a file below 16 TiB. -/
theorem callSqe_len {s : IoState} {c : Call} (h0 : 0 ≤ (getFileSize c.file).1)
    (h : (getFileSize c.file).1 ≤ 17592186040320) :
    (callSqe s c).len.toNat = (callRequest s c).entries.length := by
  show (UInt32.ofNat (blockCnt (getFileSize c.file).1).toNat).toNat = _
  rw [callRequest_length h0 (by omega), toNat_blockCnt h0 (by omega),
    UInt32.toNat_ofNat']
  refine Nat.mod_eq_of_lt ?_
  rw [tileCnt, blksize]
  omega

/-- What is reached through a queue entry tiles a file of `filesize` bytes; the
    entry and the header agree on the number of iovecs, and `bytesLeft` had not
    wrapped when any of them was sized. -/
structure SqeTiles (heap : Heap IoObject) (filesize : Int) (sqe : Sqe)
    (entries : List IoVec) : Prop where
  table : heap.live sqe.addr = some (.iovecs entries)
  tiled : Tiled blksize filesize.toNat (entries.map fun e => e.iovLen.toNat)
  bytesLeft : ∀ (i : Nat) (h : i < entries.length),
    ((bytesLeftAt filesize i).toNat : Int) = filesize - blksize * i
      ∧ entries[i].iovLen = minUlong (UInt64.ofNat blksize) (bytesLeftAt filesize i)
  sqeLen : sqe.len.toNat = entries.length
  header : ∃ len : UInt64, len.toNat = entries.length
    ∧ heap.live sqe.userData = some (.iovecArray sqe.addr len)

/-- **TILING IN THE RING**: every call for a size whose block count is at most
    `INT_MAX` leaves an entry in the ring that tiles the size. -/
theorem submitToSq_tiles (s : IoState) (c : Call) (filesize : Int)
    (hsize : (getFileSize c.file).1 = filesize) (h0 : 0 ≤ filesize)
    (hfit : (filesize + 4095) / 4096 ≤ 2147483647) :
    ∃ entries, SqeTiles (submitToSq s c).heap filesize
      ((submitToSq s c).ring.sqes (s.ring.tail &&& s.ring.ringMask)) entries := by
  subst hsize
  have hrange : (getFileSize c.file).1 < 2 ^ 63 := by omega
  have hat := requestAt_submitToSq s c
  have hlen := callRequest_length (s := s) h0 hrange
  have hlens := requestEntries_lens (getFileSize c.file).1 c.stale s.heap
  rw [submitToSq_sqes]
  refine ⟨(callRequest s c).entries, ?_⟩
  refine { table := hat.table, header := hat.header, tiled := ?_, bytesLeft := ?_, sqeLen := ?_ }
  · -- the lengths are the planned ones, and these are the tiles of the size
    have htiles := submitPlan_eq_tiles h0 hrange
    rw [← hlens, List.map_map] at htiles
    exact htiles ▸ tiled_tiles blksize_pos _
  -- the `i`-th length is the minimum taken in the `i`-th round
  · intro i h
    refine ⟨toNat_bytesLeftAt h0 hrange i (hlen ▸ h), ?_⟩
    have hget := List.getElem_of_eq hlens (by rw [List.length_map]; exact h)
    rw [List.getElem_map, getElem_submitPlan] at hget
    exact hget
  · exact callSqe_len h0 (by omega)

/-- A device of 5000 bytes, in blocks of 4096. -/
theorem submitToSq_tiles_5000 :
    ∃ entries, SqeTiles
      (submitToSq (IoState.init Heap.empty freshRing) (submitFile 3 .fails)).heap 5000
      ((submitToSq (IoState.init Heap.empty freshRing) (submitFile 3 .fails)).ring.sqes
        (freshRing.tail &&& freshRing.ringMask)) entries :=
  submitToSq_tiles _ _ 5000 rfl (by decide) (by decide)

/-! ## Failed size queries -/

/-- The queue is as it was, and nothing of it has been consumed. -/
structure RingUntouched (s s' : IoState) : Prop where
  tail : s'.ring.tail = s.ring.tail
  array : s'.ring.array = s.ring.array
  sqes : s'.ring.sqes = s.ring.sqes
  consumed : s'.consumed = s.consumed

/-- An error code counts as one block of `BLKSIZE` bytes: division truncates to
    zero, the remainder is not zero, and what is left is huge as a `size_t`. -/
theorem submitPlan_of_error {filesize : Int} (hneg : filesize < 0)
    (hcode : -4096 < filesize) : submitPlan filesize = [UInt64.ofNat blksize] := by
  obtain ⟨size, rfl⟩ : ∃ size : Int, filesize = -size := ⟨-filesize, by omega⟩
  have hdiv : Int.tdiv (-size) blksize = 0 := by
    rw [Int.neg_tdiv, blksize, Int.tdiv_eq_zero_of_lt (by omega) (by omega)]
    rfl
  have hmod : Int.tmod (-size) blksize ≠ 0 := by
    rw [Int.neg_tmod, blksize, Int.tmod_eq_of_lt (by omega) (by omega)]
    omega
  have hcnt : (blockCnt (-size)).toNat = 1 := by
    rw [blockCnt, hdiv, if_pos hmod]
    rfl
  rw [submitPlan, hcnt, iovecLens, iovecLens, minUlong, if_pos]
  rw [UInt64.lt_iff_toNat_lt, toNat_ofNat_blksize, UInt64.ofInt, UInt64.toNat_ofNat',
    blksize]
  omega

/-- **FAILED QUERIES ARE SUBMITTED**: whatever the ring holds, a negative size
    moves the tail, and for an error code the entry asks for one block. -/
theorem submitToSq_of_failed_query (s : IoState) (c : Call)
    (hneg : (getFileSize c.file).1 < 0) :
    ¬ RingUntouched s (submitToSq s c)
      ∧ (-4096 < (getFileSize c.file).1 → ∃ entries,
          (submitToSq s c).heap.live
            ((submitToSq s c).ring.sqes (s.ring.tail &&& s.ring.ringMask)).addr
              = some (.iovecs entries)
          ∧ entries.map IoVec.iovLen = [UInt64.ofNat blksize]) := by
  refine ⟨?_, ?_⟩
  · intro h
    have htail := h.tail
    rw [submitToSq_tail, UInt32.add_eq_left] at htail
    exact absurd htail (by decide)
  · intro hcode
    refine ⟨(callRequest s c).entries, ?_, ?_⟩
    · rw [submitToSq_sqes]
      exact (requestAt_submitToSq s c).table
    · rw [← submitPlan_of_error hneg hcode]
      exact requestEntries_lens _ _ _

/-- What `main` passes on when it could not open the file. -/
def submitUnopened : Call := ⟨-1, .statFails, fun _ _ => 0, .enters true⟩

theorem submitToSq_of_failed_query_unopened :
    ¬ RingUntouched (IoState.init Heap.empty freshRing)
        (submitToSq (IoState.init Heap.empty freshRing) submitUnopened)
      ∧ (-4096 < (getFileSize submitUnopened.file).1 → ∃ entries,
          (submitToSq (IoState.init Heap.empty freshRing) submitUnopened).heap.live
            ((submitToSq (IoState.init Heap.empty freshRing) submitUnopened).ring.sqes
              (freshRing.tail &&& freshRing.ringMask)).addr = some (.iovecs entries)
          ∧ entries.map IoVec.iovLen = [UInt64.ofNat blksize]) :=
  submitToSq_of_failed_query _ submitUnopened (by decide)

/-- Descriptor -1 goes into an empty ring, and the kernel consumes it. -/
theorem ringUntouched_fails_unopened :
    ¬ ∀ (s : IoState) (c : Call), (getFileSize c.file).1 < 0 →
        RingUntouched s (submitToSq s c) := by
  intro h
  have htail := (h (IoState.init Heap.empty freshRing) submitUnopened (by decide)).tail
  exact absurd htail (by decide)

end CPetRequest
