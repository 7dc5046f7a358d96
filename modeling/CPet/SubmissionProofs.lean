import CPet.BlockPlanProofs
import CPet.MemoryProofs

/-! # The submission ring of the asynchronous reader

    `submitToSq` plans the blocks of a file, allocates an iovec table, a buffer
    a block and a header, writes one queue entry into the ring that it shares
    with the kernel, and calls `io_uring_enter` to have it consumed.  The ring
    has one entry.

    `tail` moves before the system call and is never compared with `head`; a
    failed call is reported and otherwise ignored.  So a second submission
    overwrites an entry that is still waiting, and the sequence the kernel
    consumes stays a prefix of the sequence submitted, with no entry
    overwritten, exactly when every call but the last has its entry consumed.

    Progress lines on stdout are left out, and `malloc`, whose result the
    source never checks, always succeeds. -/

namespace CPetSubmission

open CPetMemory CPetBlockPlan

/-! ## Requests -/

/-- `struct iovec`. -/
structure IoVec where
  iovBase : Nat
  iovLen : UInt64
  deriving DecidableEq

/-- What `submitToSq` allocates: the iovec table, the data buffers and the
    `struct iovec_array`. -/
inductive IoObject where
  | iovecs (entries : List IoVec)
  | buffer (block : Block UInt8)
  | iovecArray (array : Nat) (len : UInt64)

/-- The fields of a `struct io_uring_sqe` that are set. -/
structure Sqe where
  fd : Int
  opcode : Nat
  addr : Nat
  len : UInt32
  userData : Nat
  off : UInt64
  deriving DecidableEq

/-- `IORING_OP_READV`. -/
def ioringOpReadv : Nat := 1

/-- Allocate the buffers of `n` iovecs; `stale` is what memory holds before. -/
def allocBuffers (stale : Nat → Nat → UInt8) :
    Nat → UInt64 → Heap IoObject → List IoVec × Heap IoObject
  | 0, _, heap => ([], heap)
  | n + 1, bytesLeft, heap =>
      let len := minUlong (UInt64.ofNat blksize) bytesLeft
      let (base, heap) := heap.alloc (.buffer ⟨len.toNat, stale heap.next⟩)
      let (rest, heap) :=
        allocBuffers stale n (bytesLeft - UInt64.ofNat blksize) heap
      (⟨base, len⟩ :: rest, heap)

/-- The iovecs have the planned lengths. -/
theorem allocBuffers_lens (stale : Nat → Nat → UInt8) :
    ∀ (n : Nat) (bytesLeft : UInt64) (heap : Heap IoObject),
      (allocBuffers stale n bytesLeft heap).1.map IoVec.iovLen
        = iovecLens n bytesLeft := by
  intro n
  induction n with
  | zero => intro bytesLeft heap; rfl
  | succ n ih =>
      intro bytesLeft heap
      rw [allocBuffers, List.map_cons, ih]
      rfl

/-- The first half of `submitToSq`: plan the blocks, allocate them, and put
    together the queue entry for them. -/
def prepareRequest (fd : Int) (filesize : Int) (stale : Nat → Nat → UInt8)
    (heap : Heap IoObject) : Sqe × Heap IoObject :=
  let cnt := blockCnt filesize
  let (iovecs, heap) := heap.alloc (.iovecs [])
  let (entries, heap) :=
    allocBuffers stale cnt.toNat (UInt64.ofInt filesize) heap
  -- the table was allocated before the buffers it points to
  let heap := heap.modify iovecs (fun _ => .iovecs entries)
  let (iovecArray, heap) := heap.alloc (.iovecArray iovecs cnt)
  (⟨fd, ioringOpReadv, iovecs, UInt32.ofNat cnt.toNat, iovecArray, 0⟩, heap)

/-! ## The ring -/

/-- The submission queue shared with the kernel: `struct app_io_sq_ring` with
    what its pointers point to, and the entries. -/
structure SqRing where
  head : UInt32
  tail : UInt32
  ringMask : UInt32
  array : UInt32 → UInt32
  sqes : UInt32 → Sqe

/-- The `entries` that `prepare_io_uring` asks for. -/
def entries : UInt32 := 1

/-- A ring as `prepare_io_uring` receives it: empty, at any counter value, and
    with the mask the kernel sets for so many entries. -/
def SqRing.SetUp (ring : SqRing) : Prop :=
  ring.head = ring.tail ∧ ring.ringMask = entries - 1

instance (ring : SqRing) : Decidable ring.SetUp :=
  inferInstanceAs (Decidable (_ ∧ _))

/-- Write an entry at the tail and advance the tail. -/
def SqRing.push (ring : SqRing) (sqe : Sqe) : SqRing :=
  -- `tail` is not compared with `head`
  let index := ring.tail &&& ring.ringMask
  { ring with
    sqes := Function.update ring.sqes index sqe
    array := Function.update ring.array index index
    tail := ring.tail + 1 }

/-- The entry the kernel takes next: `sqes[array[head & mask]]`. -/
def SqRing.front (ring : SqRing) : Sqe :=
  ring.sqes (ring.array (ring.head &&& ring.ringMask))

/-- The slot the next submission writes still belongs to an entry between
    `head` and `tail`. -/
def SqRing.Overwrites (ring : SqRing) : Prop :=
  ∃ i : UInt32, i < ring.tail - ring.head
    ∧ ring.array ((ring.head + i) &&& ring.ringMask) = ring.tail &&& ring.ringMask

/-! ## Calls and runs -/

/-- What `io_uring_enter` does: it fails, or it enters the kernel, which
    consumes an entry or not. -/
inductive EnterOutcome where
  | fails
  | enters (consumes : Bool)
  deriving DecidableEq

/-- A call of `submitToSq`, with what it meets. -/
structure Call where
  fd : Int
  file : FileInfo
  stale : Nat → Nat → UInt8
  outcome : EnterOutcome

/-- The heap, the ring and the text on stderr, and the requests submitted and
    consumed so far (oldest first). -/
structure IoState where
  heap : Heap IoObject
  ring : SqRing
  stderr : String
  submitted : List Sqe
  consumed : List Sqe

/-- `io_uring_enter(ring_fd, 1, 1, IORING_ENTER_GETEVENTS)`, and the report of
    a failure. -/
def ioUringEnter (outcome : EnterOutcome) (s : IoState) : IoState :=
  match outcome with
  | .fails => { s with stderr := s.stderr ++ "io_uring_enter() returned -1\n" }
  | .enters false => s
  | .enters true =>
      if s.ring.head = s.ring.tail then s
      else { s with
        ring := { s.ring with head := s.ring.head + 1 }
        consumed := s.consumed ++ [s.ring.front] }

/-- `submitToSq(fd, submitter)`. -/
def submitToSq (s : IoState) (c : Call) : IoState :=
  -- a negative size is used like any other
  let (filesize, message) := getFileSize c.file
  let (sqe, heap) := prepareRequest c.fd filesize c.stale s.heap
  ioUringEnter c.outcome {
    heap := heap
    ring := s.ring.push sqe
    stderr := s.stderr ++ message
    submitted := s.submitted ++ [sqe]
    consumed := s.consumed }

/-- A run of calls. -/
def run (calls : List Call) (s : IoState) : IoState :=
  calls.foldl submitToSq s

/-- Before the first call. -/
def IoState.init (heap : Heap IoObject) (ring : SqRing) : IoState :=
  ⟨heap, ring, "", [], []⟩

/-- In every state of the run the requests consumed are a prefix of the
    requests submitted, and no call overwrites an entry that still waits. -/
def NothingLost (calls : List Call) (s : IoState) : Prop :=
  (∀ pre, pre <+: calls → (run pre s).consumed <+: (run pre s).submitted)
    ∧ ∀ pre c, pre ++ [c] <+: calls → ¬ (run pre s).ring.Overwrites

/-! ## The one-entry ring -/

section Ring

variable {ring : SqRing} {sqe : Sqe}

/-- Every counter value selects the one slot. -/
theorem SqRing.SetUp.index (h : ring.SetUp) (x : UInt32) : x &&& ring.ringMask = 0 := by
  rw [h.2]
  exact UInt32.and_zero

/-- Nothing waits in an empty ring. -/
theorem SqRing.SetUp.not_overwrites (h : ring.SetUp) : ¬ ring.Overwrites := by
  rintro ⟨i, hi, -⟩
  rw [h.1, UInt32.sub_self] at hi
  exact absurd hi (UInt32.not_lt_zero)

theorem push_front (h : ring.SetUp) : (ring.push sqe).front = sqe := by
  simp [SqRing.push, SqRing.front, h.index]

/-- An entry not consumed is the one the next submission overwrites. -/
theorem push_overwrites (h : ring.SetUp) : (ring.push sqe).Overwrites := by
  refine ⟨0, ?_, ?_⟩
  · have hpending : (ring.push sqe).tail - (ring.push sqe).head = 1 := by
      show ring.tail + 1 - ring.head = 1
      rw [h.1, UInt32.add_comm]
      exact UInt32.add_sub_cancel 1 ring.tail
    rw [hpending]
    decide
  · simp [SqRing.push, h.index]

/-- A consumed entry leaves the ring empty, one counter value further. -/
theorem setUp_consumed (h : ring.SetUp) :
    SqRing.SetUp { ring.push sqe with head := ring.head + 1 } := by
  refine ⟨?_, h.2⟩
  show ring.head + 1 = ring.tail + 1
  rw [h.1]

theorem push_head_ne_tail (h : ring.SetUp) : (ring.push sqe).head ≠ (ring.push sqe).tail := by
  intro heq
  have hpending : ¬ (ring.push sqe).Overwrites := by
    rintro ⟨i, hi, -⟩
    rw [heq, UInt32.sub_self] at hi
    exact absurd hi UInt32.not_lt_zero
  exact hpending (push_overwrites h)

end Ring

/-! ## One call -/

/-- Nothing waits, and all requests have been consumed in order. -/
structure Idle (s : IoState) : Prop where
  setUp : s.ring.SetUp
  consumed : s.consumed = s.submitted

/-- What a call hands to `io_uring_enter`. -/
theorem submitToSq_eq (s : IoState) (c : Call) :
    ∃ sqe heap stderr, submitToSq s c = ioUringEnter c.outcome
      ⟨heap, s.ring.push sqe, stderr, s.submitted ++ [sqe], s.consumed⟩ :=
  ⟨_, _, _, rfl⟩

/-- **STEP, CONSUMED**: a call whose entry is consumed leaves nothing waiting. -/
theorem idle_of_consumed {s : IoState} {c : Call} (h : Idle s)
    (hc : c.outcome = .enters true) : Idle (submitToSq s c) := by
  obtain ⟨sqe, heap, stderr, hcall⟩ := submitToSq_eq s c
  rw [hcall, hc, ioUringEnter, if_neg (push_head_ne_tail h.setUp)]
  refine ⟨setUp_consumed h.setUp, ?_⟩
  show s.consumed ++ [(s.ring.push sqe).front] = s.submitted ++ [sqe]
  rw [push_front h.setUp, h.consumed]

/-- **STEP, NOT CONSUMED**: any other call leaves its entry to be overwritten. -/
theorem overwrites_of_not_consumed {s : IoState} {c : Call} (h : Idle s)
    (hc : c.outcome ≠ .enters true) : (submitToSq s c).ring.Overwrites := by
  obtain ⟨sqe, heap, stderr, hcall⟩ := submitToSq_eq s c
  rw [hcall]
  cases hout : c.outcome with
  | fails => exact push_overwrites h.setUp
  | enters consumes =>
      cases consumes with
      | false => exact push_overwrites h.setUp
      | true => exact absurd hout hc

/-- Either way the consumed requests are a prefix of the submitted ones. -/
theorem prefix_of_idle {s : IoState} (h : Idle s) (c : Call) :
    (submitToSq s c).consumed <+: (submitToSq s c).submitted := by
  by_cases hc : c.outcome = .enters true
  · exact (idle_of_consumed h hc).consumed ▸ List.prefix_refl _
  obtain ⟨sqe, heap, stderr, hcall⟩ := submitToSq_eq s c
  have horder : s.consumed <+: s.submitted ++ [sqe] := by
    rw [h.consumed]
    exact List.prefix_append _ _
  rw [hcall]
  cases hout : c.outcome with
  | fails => exact horder
  | enters consumes =>
      cases consumes with
      | false => exact horder
      | true => exact absurd hout hc

/-! ## Whole runs -/

theorem nothingLost_nil (s : IoState) :
    NothingLost [] s ↔ s.consumed <+: s.submitted := by
  constructor
  · intro h
    exact h.1 [] (List.prefix_refl _)
  · intro h
    refine ⟨?_, ?_⟩
    · intro pre hpre
      rw [List.prefix_nil.mp hpre]
      exact h
    · intro pre c hpre
      exact absurd (List.prefix_nil.mp hpre) (by simp)

theorem nothingLost_cons (c : Call) (cs : List Call) (s : IoState) :
    NothingLost (c :: cs) s ↔ s.consumed <+: s.submitted
      ∧ ¬ s.ring.Overwrites ∧ NothingLost cs (submitToSq s c) := by
  constructor
  · rintro ⟨horder, hsafe⟩
    refine ⟨horder [] List.nil_prefix, hsafe [] c (by simp), ?_, ?_⟩
    · intro pre hpre
      exact horder (c :: pre) (List.prefix_cons_inj c |>.mpr hpre)
    · intro pre d hpre
      exact hsafe (c :: pre) d (List.prefix_cons_inj c |>.mpr hpre)
  · rintro ⟨hnow, hsafe, horder, hsafe'⟩
    refine ⟨?_, ?_⟩
    · intro pre hpre
      cases pre with
      | nil => exact hnow
      | cons d pre =>
          obtain ⟨rfl, hpre'⟩ := List.cons_prefix_cons.mp hpre
          exact horder pre hpre'
    · intro pre e hpre
      cases pre with
      | nil => exact hsafe
      | cons d pre =>
          obtain ⟨rfl, hpre'⟩ := List.cons_prefix_cons.mp hpre
          exact hsafe' pre e hpre'

/-- The same from any idle state, by induction on the calls. -/
theorem nothingLost_iff_of_idle (calls : List Call) :
    ∀ s : IoState, Idle s →
      (NothingLost calls s ↔ ∀ c ∈ calls.dropLast, c.outcome = .enters true) := by
  induction calls with
  | nil =>
      intro s h
      rw [nothingLost_nil, h.consumed]
      simp
  | cons c cs ih =>
      intro s h
      have hnow : s.consumed <+: s.submitted := h.consumed ▸ List.prefix_refl _
      rw [nothingLost_cons]
      cases cs with
      | nil =>
          rw [nothingLost_nil]
          have hlast := prefix_of_idle h c
          simp [hnow, h.setUp.not_overwrites, hlast]
      | cons d ds =>
          rw [List.dropLast_cons_cons, List.forall_mem_cons]
          by_cases hc : c.outcome = .enters true
          · rw [ih _ (idle_of_consumed h hc)]
            simp [hnow, h.setUp.not_overwrites, hc]
          · -- the next call finds the entry of this one in its slot
            have hlost := overwrites_of_not_consumed h hc
            rw [nothingLost_cons]
            simp [hc, hlost]

/-- **NO SUBMISSION IS LOST** in a run on the one-entry ring, from any counter
    value, if and only if every call but the last has its entry consumed. -/
theorem nothingLost_iff (heap : Heap IoObject) (ring : SqRing) (h : ring.SetUp)
    (calls : List Call) :
    NothingLost calls (IoState.init heap ring)
      ↔ ∀ c ∈ calls.dropLast, c.outcome = .enters true :=
  nothingLost_iff_of_idle calls _ ⟨h, rfl⟩

/-- An empty ring whose counters stand just before their wrap. -/
def freshRing : SqRing :=
  ⟨4294967295, 4294967295, 0, fun _ => 0, fun _ => ⟨0, 0, 0, 0, 0, 0⟩⟩

/-- Submit a file of 5000 bytes. -/
def submitFile (fd : Int) (outcome : EnterOutcome) : Call :=
  ⟨fd, .regular 5000, fun _ _ => 0, outcome⟩

theorem nothingLost_iff_two_files :
    NothingLost [submitFile 3 (.enters true), submitFile 4 .fails]
        (IoState.init Heap.empty freshRing)
      ↔ ∀ c ∈ [submitFile 3 (.enters true), submitFile 4 .fails].dropLast,
          c.outcome = .enters true :=
  nothingLost_iff Heap.empty freshRing (by decide) _

/-- Two files are submitted, `io_uring_enter` fails on the first and consumes
    on the second: the kernel reads the second file, and never the first. -/
theorem nothingLost_fails_after_failed_enter :
    ¬ ∀ (heap : Heap IoObject) (ring : SqRing), ring.SetUp →
        ∀ calls, NothingLost calls (IoState.init heap ring) := by
  intro h
  have hrun := h Heap.empty freshRing (by decide)
    [submitFile 3 .fails, submitFile 4 (.enters true)]
  exact absurd (hrun.1 _ (List.prefix_refl _)) (by decide)

end CPetSubmission
