import CPet.CompletionProofs

/-! # What the vectored readers print

    `read_and_print_file_readv` allocates a buffer a block, fills them with one
    `readv`, prints them all and frees them.  `submitToSq` and `readFromCq` do
    the same through the rings.  Neither looks at the number of bytes that were
    read: every buffer is printed at its full length.

    So the bytes printed are those read exactly when the read filled all
    buffers; a shorter read is followed by whatever the heap held before.  The
    synchronous reader gives back all blocks it allocates, on every path. -/

namespace CPetVectoredRead

open CPetMemory CPetTiling CPetBlockPlan CPetSubmission CPetRequest CPetIovec
open CPetCompletion

/-- Allocate the buffers of `n` iovecs when `bytes_remaining` bytes are left. -/
def readvBuffers (stale : Nat → Nat → UInt8) :
    Nat → Int → Heap IoObject → List IoVec × Heap IoObject
  | 0, _, heap => ([], heap)
  | n + 1, bytesRemaining, heap =>
      let blksize' := minUlong (UInt64.ofNat blksize) (UInt64.ofInt bytesRemaining)
      let (buf, heap) := heap.alloc (.buffer ⟨blksize'.toNat, stale heap.next⟩)
      let (rest, heap) := readvBuffers stale n (bytesRemaining - blksize) heap
      (⟨buf, blksize'⟩ :: rest, heap)

/-- The value returned, the text on stderr and the memory afterwards. -/
structure ReadvResult where
  ret : Int
  stderr : String
  memory : IoMemory

/-- `read_and_print_file_readv(filename)`: `file` is what `open` finds, and
    `bytes` what `readv` reads; each is missing when the call fails. -/
def readAndPrintFileReadv (filename : String) (file : Option FileInfo)
    (bytes : Option (List UInt8)) (stale : Nat → Nat → UInt8) (m : IoMemory) :
    ReadvResult :=
  match file with
  | none => ⟨1, "Couldn't open the file " ++ filename ++ "\n", m⟩
  | some info =>
      let (filesize, message) := getFileSize info
      if filesize ≤ 0 then ⟨-1, message, m⟩
      else
        let blockCnt := (readvBlockCnt filesize).toInt.toNat
        let (iovecs, heap) := readvBuffers stale blockCnt filesize m.heap
        match bytes with
        | none =>
            ⟨1, message ++ "Couldn't readv(): -1\n",
              freeIovecs iovecs { m with heap := heap }⟩
        | some bytes =>
            let heap := scatter iovecs bytes heap
            -- the count that `readv` returned is not used
            ⟨0, message, freeIovecs iovecs (outputIovecs iovecs { m with heap := heap })⟩

/-! ## The synchronous reader's buffers -/

/-- They are allocated as `submitToSq` allocates its own. -/
theorem readvBuffers_eq (stale : Nat → Nat → UInt8) :
    ∀ (n : Nat) (bytesRemaining : Int) (heap : Heap IoObject),
      readvBuffers stale n bytesRemaining heap
        = allocBuffers stale n (UInt64.ofInt bytesRemaining) heap := by
  intro n
  induction n with
  | zero => intro bytesRemaining heap; rfl
  | succ n ih =>
      intro bytesRemaining heap
      simp only [readvBuffers, allocBuffers, ih, ofInt_sub_blksize]

theorem capacity_eq (entries : List IoVec) :
    capacity entries = ((entries.map IoVec.iovLen).map UInt64.toNat).sum := by
  rw [List.map_map]
  rfl

section Buffers

variable (stale : Nat → Nat → UInt8) (n : Nat) (bytesLeft : UInt64)
  (heap : Heap IoObject)

theorem allocBuffers_live : BuffersLive (allocBuffers stale n bytesLeft heap).2
    (allocBuffers stale n bytesLeft heap).1 := by
  intro e he
  exact ⟨_, allocBuffers_live_of_mem stale n bytesLeft heap e he⟩

theorem allocBuffers_nodup : (bases (allocBuffers stale n bytesLeft heap).1).Nodup := by
  rw [bases, allocBuffers_bases]
  exact List.nodup_range'

/-- The buffers are the only new blocks. -/
theorem allocBuffers_live_of_not_mem {a : Nat}
    (ha : a ∉ bases (allocBuffers stale n bytesLeft heap).1) :
    (allocBuffers stale n bytesLeft heap).2.live a = heap.live a := by
  by_cases hold : a < heap.next
  · exact allocBuffers_live_of_lt stale n bytesLeft heap hold
  · -- from here on nothing is live, before or after
    rw [bases, allocBuffers_bases, List.mem_range'_1] at ha
    rw [heap.fresh a (by omega)]
    refine (allocBuffers stale n bytesLeft heap).2.fresh a ?_
    rw [allocBuffers_next]
    omega

end Buffers

/-! ## The synchronous reader gives everything back -/

/-- Blocks are allocated, refilled and freed: no address changes. -/
theorem freeIovecs_allocBuffers {stale : Nat → Nat → UInt8} {n : Nat}
    {bytesLeft : UInt64} {heap : Heap IoObject} {m : IoMemory}
    (hsame : ∀ a, a ∉ bases (allocBuffers stale n bytesLeft heap).1 →
      m.heap.live a = (allocBuffers stale n bytesLeft heap).2.live a) (a : Nat) :
    (freeIovecs (allocBuffers stale n bytesLeft heap).1 m).heap.live a = heap.live a := by
  rw [freeIovecs_eq]
  by_cases ha : a ∈ bases (allocBuffers stale n bytesLeft heap).1
  · -- a new buffer: freed now, and not live before
    rw [freeAll_live, if_pos ha]
    rw [bases, allocBuffers_bases, List.mem_range'_1] at ha
    exact (heap.fresh a ha.1).symm
  · rw [freeAll_live, if_neg ha, hsame a ha]
    exact allocBuffers_live_of_not_mem stale n bytesLeft heap ha

/-- **BALANCE, SYNCHRONOUS**: on every path `read_and_print_file_readv` leaves the
    heap with the blocks it found. -/
theorem readAndPrintFileReadv_live (filename : String) (file : Option FileInfo)
    (bytes : Option (List UInt8)) (stale : Nat → Nat → UInt8) (m : IoMemory) (a : Nat) :
    (readAndPrintFileReadv filename file bytes stale m).memory.heap.live a
      = m.heap.live a := by
  cases file with
  | none => rfl
  | some info =>
      by_cases hsize : (getFileSize info).1 ≤ 0
      · simp only [readAndPrintFileReadv, if_pos hsize]
      · cases bytes with
        | none =>
            simp only [readAndPrintFileReadv, if_neg hsize, readvBuffers_eq]
            exact freeIovecs_allocBuffers (fun _ _ => rfl) a
        | some bytes =>
            simp only [readAndPrintFileReadv, if_neg hsize, readvBuffers_eq,
              outputIovecs_eq]
            refine freeIovecs_allocBuffers ?_ a
            intro a' ha'
            exact scatter_live_of_not_mem _ _ _ ha'

/-! ## What is printed -/

section Printed

variable {file : FileInfo} {filesize : Int}

/-- What the synchronous reader prints when both `open` and `readv` succeed. -/
theorem readAndPrintFileReadv_printed (hfile : (getFileSize file).1 = filesize)
    (hpos : 0 < filesize) (filename : String) (bytes : List UInt8)
    (stale : Nat → Nat → UInt8) (m : IoMemory) :
    (readAndPrintFileReadv filename (some file) (some bytes) stale m).memory.printed
      = m.printed ++
        gather (scatter
            (allocBuffers stale (readvBlockCnt filesize).toInt.toNat
              (UInt64.ofInt filesize) m.heap).1 bytes
            (allocBuffers stale (readvBlockCnt filesize).toInt.toNat
              (UInt64.ofInt filesize) m.heap).2)
          (allocBuffers stale (readvBlockCnt filesize).toInt.toNat
            (UInt64.ofInt filesize) m.heap).1 := by
  subst hfile
  simp only [readAndPrintFileReadv, if_neg (Int.not_le.mpr hpos), readvBuffers_eq,
    outputIovecs_eq, freeIovecs_eq]

/-- The synchronous reader's buffers hold as many blocks as its `int` count. -/
theorem capacity_readv (h0 : 0 ≤ filesize) (h : filesize < 2 ^ 63)
    (stale : Nat → Nat → UInt8) (heap : Heap IoObject) :
    capacity (allocBuffers stale (readvBlockCnt filesize).toInt.toNat
        (UInt64.ofInt filesize) heap).1
      = min filesize.toNat (blksize * (readvBlockCnt filesize).toInt.toNat) := by
  have htiles := readvPlan_eq_tiles h0 h
  rw [readvPlan, readvLens_eq] at htiles
  rw [capacity_eq, allocBuffers_lens, htiles, sum_tiles]

/-- The buffers of a request hold the file. -/
theorem capacity_requestEntries (h0 : 0 ≤ filesize) (h : filesize < 2 ^ 63)
    (stale : Nat → Nat → UInt8) (heap : Heap IoObject) :
    capacity (requestEntries filesize stale heap) = filesize.toNat := by
  rw [capacity_eq, requestEntries_lens, submitPlan_eq_tiles h0 h,
    sum_tiles_tileCnt blksize_pos]

end Printed

/-- The kernel reads `bytes` for a queue entry, and `readFromCq` processes the
    completion. -/
def serve (sqe : Sqe) (bytes : List UInt8) (m : IoMemory) : IoMemory :=
  processEntry sqe.userData (kernelRead sqe bytes m)

/-- What the asynchronous reader prints for a request that stands. -/
theorem serve_printed {m : IoMemory} {r : Request} (hat : RequestAt m.heap r) {sqe : Sqe}
    (haddr : sqe.addr = r.addr) (huser : sqe.userData = r.userData)
    (bytes : List UInt8) :
    (serve sqe bytes m).printed
      = m.printed
        ++ gather (scatter (r.entries.take sqe.len.toNat) bytes m.heap) r.entries := by
  have hat' : RequestAt (kernelRead sqe bytes m).heap r :=
    requestAt_congr hat fun a _ => sameShape_kernelRead sqe bytes m a
  rw [serve, huser, processEntry_eq hat', kernelRead_eq hat haddr]

/-- The asynchronous reader prints the bytes read exactly when they are the
    whole file. -/
theorem serve_printed_iff {content : List UInt8} (hmax : content.length < 2 ^ 63)
    (s : IoState) (c : Call) (hfile : (getFileSize c.file).1 = content.length)
    {m : IoMemory} (hat : RequestAt m.heap (callRequest s c)) {n : Nat}
    (hn : n ≤ content.length) (hres : n < 2 ^ 31) :
    (serve (callSqe s c) (content.take n) m).printed = m.printed ++ content.take n
      ↔ n = content.length := by
  have hlive : BuffersLive m.heap (callRequest s c).entries := by
    intro e he
    obtain ⟨block, -, hblock⟩ := hat.buffers e he
    exact ⟨block, hblock⟩
  have hcap : capacity (callRequest s c).entries = content.length := by
    rw [callRequest, preparedRequest, capacity_requestEntries (by omega) (by omega), hfile,
      Int.toNat_natCast]
  have hlen : (content.take n).length = n := by
    rw [List.length_take, Nat.min_eq_left hn]
  rw [serve_printed hat (callSqe_addr s c) (callSqe_userData s c),
    List.append_cancel_left_eq]
  constructor
  · intro hprinted
    have hgather := length_gather _ (buffersLive_scatter hlive
      ((callRequest s c).entries.take (callSqe s c).len.toNat) (content.take n))
    rw [hprinted, hlen, hcap] at hgather
    exact hgather
  · intro hall
    -- the count fits a result, so the size is small and the entry counts all blocks
    have hcnt : (callSqe s c).len.toNat = (callRequest s c).entries.length :=
      callSqe_len (by omega) (by omega)
    have hnodup := (List.nodup_cons.mp (List.nodup_cons.mp hat.distinct).2).2
    rw [hcnt, List.take_length]
    exact (gather_scatter_iff hlive hnodup _).mpr (by rw [hlen, hcap, hall])

/-- **THE BYTES READ ARE THE BYTES PRINTED** if and only if the read filled all
    buffers: on the synchronous path as many blocks as the `int` count says, on
    the asynchronous one the whole file. -/
theorem printed_iff (content : List UInt8) (hpos : 0 < content.length)
    (hmax : content.length < 2 ^ 63) (file : FileInfo)
    (hfile : (getFileSize file).1 = content.length) (n : Nat) (hn : n ≤ content.length) :
    (∀ (filename : String) (stale : Nat → Nat → UInt8) (m : IoMemory),
      (readAndPrintFileReadv filename (some file) (some (content.take n)) stale m).memory.printed
          = m.printed ++ content.take n
        ↔ n = min content.length
            (blksize * (readvBlockCnt content.length).toInt.toNat))
    ∧ ∀ (s : IoState) (c : Call) (m : IoMemory) (res : Int32), c.file = file →
        RequestAt m.heap (callRequest s c) → res.toInt = n →
        ((serve (callSqe s c) (content.take n) m).printed = m.printed ++ content.take n
          ↔ n = content.length) := by
  refine ⟨?_, ?_⟩
  · intro filename stale m
    have hlen : (content.take n).length = n := by
      rw [List.length_take, Nat.min_eq_left hn]
    rw [readAndPrintFileReadv_printed hfile (by omega), List.append_cancel_left_eq,
      gather_scatter_iff (allocBuffers_live _ _ _ _) (allocBuffers_nodup _ _ _ _), hlen,
      capacity_readv (by omega) (by omega), Int.toNat_natCast]
  · intro s c m res hc hat hres
    have hlt := res.toInt_lt
    exact serve_printed_iff hmax s c (hc ▸ hfile) hat hn (by omega)

/-- A file of five bytes, on a heap where every fresh byte is an `X`. -/
def smallContent : List UInt8 := [104, 101, 108, 108, 111]

def smallCall : Call := ⟨3, .regular 5, fun _ _ => 88, .enters true⟩

theorem printed_iff_small :
    ((readAndPrintFileReadv "somefile.txt" (some (.regular 5)) (some (smallContent.take 2))
          (fun _ _ => 88) ⟨Heap.empty, [], []⟩).memory.printed
        = [] ++ smallContent.take 2
      ↔ 2 = min smallContent.length
          (blksize * (readvBlockCnt smallContent.length).toInt.toNat))
    ∧ ((serve (callSqe (IoState.init Heap.empty freshRing) smallCall) (smallContent.take 2)
          ⟨(submitToSq (IoState.init Heap.empty freshRing) smallCall).heap, [], []⟩).printed
        = [] ++ smallContent.take 2
      ↔ 2 = smallContent.length) :=
  have hprinted := printed_iff smallContent (by decide) (by decide) (.regular 5) rfl 2
    (by decide)
  ⟨hprinted.1 _ _ _, hprinted.2 _ smallCall _ 2 rfl (requestAt_submitToSq _ _) rfl⟩

/-- Two bytes of five are read: the synchronous reader prints three more. -/
theorem printed_fails_short_read :
    ¬ ∀ (content : List UInt8), 0 < content.length → ∀ n, n ≤ content.length →
        ∀ (filename : String) (stale : Nat → Nat → UInt8) (m : IoMemory),
          (readAndPrintFileReadv filename (some (.regular content.length))
              (some (content.take n)) stale m).memory.printed
            = m.printed ++ content.take n := by
  intro h
  have hprinted := h smallContent (by decide) 2 (by decide) "somefile.txt" (fun _ _ => 88)
    ⟨Heap.empty, [], []⟩
  have hfive : (readAndPrintFileReadv "somefile.txt" (some (.regular smallContent.length))
      (some (smallContent.take 2)) (fun _ _ => 88) ⟨Heap.empty, [], []⟩).memory.printed
        = [104, 101, 88, 88, 88] := by decide
  rw [hfive] at hprinted
  exact absurd hprinted (by decide)

end CPetVectoredRead
