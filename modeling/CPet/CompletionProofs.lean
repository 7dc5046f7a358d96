import CPet.IovecProofs
import CPet.RingProofs
import CPet.RunProofs

/-! # Reading the completion ring

    `readFromCq` spins until the completion ring is not empty, looks at the
    entry at the head, prints and frees the request behind it, and advances
    the head; then it starts over, for ever.  An entry with a negative result
    makes it return at once, with the head where it was.

    The reader is a machine with one step for each access to the shared ring,
    and the kernel may post entries between any two of them.  The invariant is
    that of the ring, with what is known at each place of the reader's loop.
    So the entries are processed in the order posted, under every
    interleaving; and the reader never returns with an empty ring.

    The head and tail are read anew at each use, and `cqe` is a pointer into
    the ring, so the entry is read when it is used, not when the pointer is
    set.  Progress lines on stdout are left out. -/

namespace CPetCompletion

open CPetRun CPetRing CPetSubmission CPetRequest CPetIovec

/-- `struct io_uring_cqe`. -/
structure Cqe where
  userData : Nat
  res : Int32
  deriving DecidableEq

/-- Print and free the request behind a `user_data`.  The table itself,
    `iovec_array->array`, is not freed. -/
def processEntry (userData : Nat) (m : IoMemory) : IoMemory :=
  match m.heap.live userData with
  | some (.iovecArray array len) =>
      match m.heap.live array with
      | some (.iovecs entries) =>
          freeBlock userData (outputAndFreeIovecs (entries.take len.toNat) m)
      | _ => m
  | _ => m

/-- The kernel's side of a vectored read: it finds the table through the queue
    entry, and stores the bytes it has read. -/
def kernelRead (sqe : Sqe) (bytes : List UInt8) (m : IoMemory) : IoMemory :=
  match m.heap.live sqe.addr with
  | some (.iovecs entries) =>
      { m with heap := scatter (entries.take sqe.len.toNat) bytes m.heap }
  | _ => m

/-! ## The request behind a `user_data` -/

section Request

variable {m : IoMemory} {r : Request}

/-- A standing request is printed and freed buffer by buffer, then its header
    is freed. -/
theorem processEntry_eq (hat : RequestAt m.heap r) :
    processEntry r.userData m
      = { heap := (m.heap.freeAll (bases r.entries)).free r.userData
          printed := m.printed ++ gather m.heap r.entries
          freed := m.freed ++ bases r.entries ++ [r.userData] } := by
  obtain ⟨len, hlen, hheader⟩ := hat.header
  have hnodup : (bases r.entries).Nodup :=
    (List.nodup_cons.mp (List.nodup_cons.mp hat.distinct).2).2
  have hall : r.entries.take len.toNat = r.entries := by rw [hlen, List.take_length]
  simp only [processEntry, hheader, hat.table, hall, outputAndFreeIovecs_eq _ _ hnodup]
  rfl

/-- The kernel finds the table and fills the buffers it covers. -/
theorem kernelRead_eq (hat : RequestAt m.heap r) {sqe : Sqe} (haddr : sqe.addr = r.addr)
    (bytes : List UInt8) :
    kernelRead sqe bytes m
      = { m with heap := scatter (r.entries.take sqe.len.toNat) bytes m.heap } := by
  simp only [kernelRead, haddr, hat.table]

/-- Whatever the kernel reads, heaps keep their shape. -/
theorem sameShape_kernelRead (sqe : Sqe) (bytes : List UInt8) (m : IoMemory) (a : Nat) :
    SameShape m.heap (kernelRead sqe bytes m).heap a := by
  rw [kernelRead]
  split
  · exact sameShape_scatter _ _ _ _
  · exact SameShape.of_eq rfl

end Request

/-! ## The reader and the kernel -/

/-- Where `readFromCq` stands; `slot` is the entry that `cqe` points to. -/
inductive ReaderPc where
  | wait
  | fetch
  | check (slot : UInt32)
  | process (slot : UInt32)
  | advance
  | returned
  deriving DecidableEq

/-- The completion ring, the memory and the reader; and everything posted to
    the ring and processed from it so far, oldest first. -/
structure Session where
  cq : RingBuffer Cqe
  memory : IoMemory
  pc : ReaderPc
  stderr : String
  posted : List Cqe
  processed : List Nat

/-- Before the call of `readFromCq`. -/
def Session.start (cq : RingBuffer Cqe) (memory : IoMemory) : Session :=
  ⟨cq, memory, .wait, "", [], []⟩

/-- One step of `readFromCq`. -/
def readStep (s : Session) : Session :=
  match s.pc with
  | .wait => if s.cq.tail = s.cq.head then s else { s with pc := .fetch }
  | .fetch => { s with pc := .check (s.cq.head &&& s.cq.mask) }
  | .check slot =>
      if (s.cq.slots slot).res < 0 then
        { s with
          pc := .returned
          stderr := s.stderr ++ "[READ  ] The Completion Queue Entry (CQE) result: "
            ++ toString (s.cq.slots slot).res.toInt }
      else { s with pc := .process slot }
  | .process slot =>
      { s with
        pc := .advance
        memory := processEntry (s.cq.slots slot).userData s.memory
        processed := s.processed ++ [(s.cq.slots slot).userData] }
  | .advance =>
      { s with
        pc := .wait
        cq := s.cq.advance }
  | .returned => s

/-- The kernel completes a request, if the ring has room: it stores the bytes
    read and posts the result. -/
def complete (sqe : Sqe) (bytes : List UInt8) (res : Int32) (s : Session) : Session :=
  if s.cq.HasRoom then
    { s with
      memory := kernelRead sqe bytes s.memory
      cq := s.cq.post ⟨sqe.userData, res⟩
      posted := s.posted ++ [⟨sqe.userData, res⟩] }
  else s

/-- A step of either side. -/
inductive Event where
  | complete (sqe : Sqe) (bytes : List UInt8) (res : Int32)
  | read

def sessionStep (s : Session) : Event → Session
  | .complete sqe bytes res => complete sqe bytes res s
  | .read => readStep s

/-- A run of both sides, in any order of steps. -/
def runSession (events : List Event) (s : Session) : Session :=
  events.foldl sessionStep s

/-! ## The steps of the reader -/

/-- What a step of `readFromCq` can do. -/
inductive ReadMove (s : Session) : Session → Prop where
  | spin (hpc : s.pc = .wait) (hempty : s.cq.tail = s.cq.head) : ReadMove s s
  | leave (hpc : s.pc = .wait) (hmore : s.cq.tail ≠ s.cq.head) :
      ReadMove s { s with pc := .fetch }
  | fetch (hpc : s.pc = .fetch) :
      ReadMove s { s with pc := .check (s.cq.head &&& s.cq.mask) }
  | fail (slot : UInt32) (text : String) (hpc : s.pc = .check slot)
      (hres : (s.cq.slots slot).res < 0) :
      ReadMove s { s with
        pc := .returned
        stderr := text }
  | pass (slot : UInt32) (hpc : s.pc = .check slot)
      (hres : ¬ (s.cq.slots slot).res < 0) : ReadMove s { s with pc := .process slot }
  | process (slot : UInt32) (hpc : s.pc = .process slot) :
      ReadMove s { s with
        pc := .advance
        memory := processEntry (s.cq.slots slot).userData s.memory
        processed := s.processed ++ [(s.cq.slots slot).userData] }
  | advance (hpc : s.pc = .advance) :
      ReadMove s { s with
        pc := .wait
        cq := s.cq.advance }
  | returned (hpc : s.pc = .returned) : ReadMove s s

theorem readMove (s : Session) : ReadMove s (readStep s) := by
  cases hpc : s.pc with
  | wait =>
      rw [readStep, hpc]
      by_cases hempty : s.cq.tail = s.cq.head
      · rw [if_pos hempty]
        exact .spin hpc hempty
      · rw [if_neg hempty]
        exact .leave hpc hempty
  | fetch =>
      rw [readStep, hpc]
      exact .fetch hpc
  | check slot =>
      by_cases hres : (s.cq.slots slot).res < 0
      · simp only [readStep, hpc, if_pos hres]
        exact .fail slot _ hpc hres
      · simp only [readStep, hpc, if_neg hres]
        exact .pass slot hpc hres
  | process slot =>
      rw [readStep, hpc]
      exact .process slot hpc
  | advance =>
      rw [readStep, hpc]
      exact .advance hpc
  | returned =>
      rw [readStep, hpc]
      exact .returned hpc

/-! ## The invariant -/

/-- The first `n` entries posted have been processed, and none of them failed. -/
structure Done (s : Session) (n : Nat) : Prop where
  processed : s.processed = (s.posted.take n).map Cqe.userData
  succeeded : ∀ e ∈ s.posted.take n, ¬ e.res < 0

/-- What is known at each place when `taken` entries have been taken. -/
def AtPc (s : Session) (taken : Nat) : ReaderPc → Prop
  | .wait => Done s taken
  | .fetch => taken < s.posted.length ∧ Done s taken
  | .check slot =>
      taken < s.posted.length ∧ Done s taken ∧ slot = s.cq.head &&& s.cq.mask
  | .process slot =>
      taken < s.posted.length ∧ Done s taken ∧ slot = s.cq.head &&& s.cq.mask
        ∧ ¬ s.cq.front.res < 0
  | .advance => taken < s.posted.length ∧ Done s (taken + 1)
  | .returned => taken < s.posted.length ∧ Done s taken ∧ s.cq.front.res < 0

/-- The ring holds what is posted and not taken, and the reader knows what its
    place says. -/
structure Inv (k : Nat) (s : Session) (taken : Nat) : Prop where
  tracks : Tracks s.cq k s.posted taken
  atPc : AtPc s taken s.pc

/-- The invariant holds at the start. -/
theorem inv_start {k : Nat} {cq : RingBuffer Cqe} (h : cq.SetUp k) (memory : IoMemory) :
    Inv k (Session.start cq memory) 0 where
  tracks := tracks_setUp h
  atPc := ⟨rfl, fun _ he => nomatch he⟩

section Step

variable {k : Nat} {s : Session} {taken : Nat}

/-- The first entries stay first when one more is posted. -/
theorem Done.post {n : Nat} (h : Done s n) (hn : n ≤ s.posted.length) {s' : Session}
    {e : Cqe} (hposted : s'.posted = s.posted ++ [e])
    (hprocessed : s'.processed = s.processed) : Done s' n := by
  have htake : s'.posted.take n = s.posted.take n := by
    rw [hposted, List.take_append_of_le_length hn]
  refine ⟨?_, ?_⟩
  · rw [htake, hprocessed, h.processed]
  · rw [htake]
    exact h.succeeded

/-- The reader's knowledge survives a post: the entry at the head is not the
    slot written. -/
theorem AtPc.post (ht : Tracks s.cq k s.posted taken) (hroom : s.cq.HasRoom) {s' : Session}
    {e : Cqe} (hcq : s'.cq = s.cq.post e) (hposted : s'.posted = s.posted ++ [e])
    (hprocessed : s'.processed = s.processed) {pc : ReaderPc} (h : AtPc s taken pc) :
    AtPc s' taken pc := by
  have hlen : taken < s.posted.length → taken < s'.posted.length := by
    intro hlt
    rw [hposted, List.length_append]
    exact Nat.lt_add_right _ hlt
  have hdone : ∀ {n}, Done s n → n ≤ s.posted.length → Done s' n :=
    fun hd hn => hd.post hn hposted hprocessed
  have hfront : taken < s.posted.length → s'.cq.front = s.cq.front := by
    intro hlt
    -- the oldest entry not taken is the same before and after
    have hlt' : taken < (s.posted ++ [e]).length := hposted ▸ hlen hlt
    rw [hcq, (tracks_post ht hroom e).front hlt', ht.front hlt,
      List.getElem_append_left hlt]
  have hhead : s'.cq.head &&& s'.cq.mask = s.cq.head &&& s.cq.mask := by
    rw [hcq]
    rfl
  cases pc with
  | wait => exact hdone h ht.taken_le
  | fetch => exact ⟨hlen h.1, hdone h.2 ht.taken_le⟩
  | check slot => exact ⟨hlen h.1, hdone h.2.1 ht.taken_le, h.2.2.trans hhead.symm⟩
  | process slot =>
      obtain ⟨hlt, hd, hslot, hres⟩ := h
      refine ⟨hlen hlt, hdone hd ht.taken_le, hslot.trans hhead.symm, ?_⟩
      rw [hfront hlt]
      exact hres
  | advance => exact ⟨hlen h.1, hdone h.2 h.1⟩
  | returned =>
      obtain ⟨hlt, hd, hres⟩ := h
      refine ⟨hlen hlt, hdone hd ht.taken_le, ?_⟩
      rw [hfront hlt]
      exact hres

/-- **STEP, KERNEL**: posting with room keeps the invariant, wherever the reader
    stands. -/
theorem inv_complete (h : Inv k s taken) (sqe : Sqe) (bytes : List UInt8) (res : Int32) :
    Inv k (complete sqe bytes res s) taken := by
  rw [complete]
  by_cases hroom : s.cq.HasRoom
  · rw [if_pos hroom]
    refine ⟨tracks_post h.tracks hroom _, ?_⟩
    refine AtPc.post (e := ⟨sqe.userData, res⟩) h.tracks hroom ?_ ?_ ?_ h.atPc
    · rfl
    · rfl
    · rfl
  · rw [if_neg hroom]
    exact h

/-- Processing the entry at the head makes one more done. -/
theorem Done.process (hd : Done s taken) (ht : Tracks s.cq k s.posted taken)
    (hlt : taken < s.posted.length) (hres : ¬ s.cq.front.res < 0) {s' : Session}
    (hposted : s'.posted = s.posted)
    (hprocessed : s'.processed = s.processed ++ [s.cq.front.userData]) :
    Done s' (taken + 1) := by
  have htake : s.posted.take (taken + 1) = s.posted.take taken ++ [s.cq.front] := by
    rw [List.take_succ_eq_append_getElem hlt, ht.front hlt]
  refine ⟨?_, ?_⟩
  · rw [hprocessed, hposted, htake, List.map_append, hd.processed]
    rfl
  · rw [hposted, htake]
    intro e he
    rcases List.mem_append.mp he with hold | hnew
    · exact hd.succeeded e hold
    · rw [List.mem_singleton.mp hnew]
      exact hres

/-- **STEP, READER**: every step of `readFromCq` keeps the invariant, and the one
    that advances the head takes an entry. -/
theorem inv_readStep (h : Inv k s taken) : ∃ taken', Inv k (readStep s) taken' := by
  obtain ⟨ht, hat⟩ := h
  generalize readStep s = s', readMove s = hmove
  cases hmove with
  | spin hpc hempty => exact ⟨taken, ht, hat⟩
  | leave hpc hmore =>
      rw [hpc] at hat
      -- the ring is not empty, so something posted has not been taken
      have hlt : taken < s.posted.length := by
        refine Nat.lt_of_le_of_ne ht.taken_le ?_
        intro hall
        exact hmore (ht.empty_iff.mpr hall).symm
      exact ⟨taken, ht, hlt, hat.processed, hat.succeeded⟩
  | fetch hpc =>
      rw [hpc] at hat
      exact ⟨taken, ht, hat.1, ⟨hat.2.processed, hat.2.succeeded⟩, rfl⟩
  | fail slot text hpc hres =>
      rw [hpc] at hat
      obtain ⟨hlt, hd, rfl⟩ := hat
      exact ⟨taken, ht, hlt, ⟨hd.processed, hd.succeeded⟩, hres⟩
  | pass slot hpc hres =>
      rw [hpc] at hat
      obtain ⟨hlt, hd, rfl⟩ := hat
      exact ⟨taken, ht, hlt, ⟨hd.processed, hd.succeeded⟩, rfl, hres⟩
  | process slot hpc =>
      rw [hpc] at hat
      -- processed but not yet taken: the head moves only at the next step
      obtain ⟨hlt, hd, rfl, hres⟩ := hat
      exact ⟨taken, ht, hlt, hd.process ht hlt hres rfl rfl⟩
  | advance hpc =>
      rw [hpc] at hat
      exact ⟨taken + 1, tracks_advance ht hat.1, hat.2.processed, hat.2.succeeded⟩
  | returned hpc => exact ⟨taken, ht, hat⟩

/-- **RUN**: the invariant holds after every run of both sides. -/
theorem inv_runSession (events : List Event) :
    ∀ {s : Session} {taken : Nat}, Inv k s taken →
      ∃ taken', Inv k (runSession events s) taken' := by
  induction events with
  | nil => intro s taken h; exact ⟨taken, h⟩
  | cons event events ih =>
      intro s taken h
      cases event with
      | complete sqe bytes res => exact ih (inv_complete h sqe bytes res)
      | read =>
          obtain ⟨taken', h'⟩ := inv_readStep h
          exact ih h'

/-- At every place the entries processed are the first ones posted. -/
theorem Inv.done (h : Inv k s taken) : ∃ n, n ≤ s.posted.length ∧ Done s n := by
  obtain ⟨ht, hat⟩ := h
  cases hs : s.pc with
  | wait =>
      rw [hs] at hat
      exact ⟨taken, ht.taken_le, hat⟩
  | fetch =>
      rw [hs] at hat
      exact ⟨taken, ht.taken_le, hat.2⟩
  | check slot =>
      rw [hs] at hat
      exact ⟨taken, ht.taken_le, hat.2.1⟩
  | process slot =>
      rw [hs] at hat
      exact ⟨taken, ht.taken_le, hat.2.1⟩
  | advance =>
      rw [hs] at hat
      exact ⟨taken + 1, hat.1, hat.2⟩
  | returned =>
      rw [hs] at hat
      exact ⟨taken, ht.taken_le, hat.2.1⟩

end Step

/-! ## In the order posted -/

/-- An empty completion ring of two entries whose counters stand just before
    their wrap. -/
def freshCq : RingBuffer Cqe := ⟨4294967295, 4294967295, 1, fun _ => ⟨0, 0⟩⟩

theorem freshCq_setUp : freshCq.SetUp 1 := ⟨rfl, rfl, by decide⟩

/-- A request for 5 bytes. -/
def smallSqe : Sqe := ⟨3, ioringOpReadv, 0, 1, 2, 0⟩

/-- **FIRST IN, FIRST OUT**: from an empty ring of any size and at any counter
    value, under every interleaving, what the reader has processed is a prefix
    of what the kernel has posted. -/
theorem processed_prefix_posted {k : Nat} {cq : RingBuffer Cqe} (h : cq.SetUp k)
    (memory : IoMemory) (events : List Event) :
    (runSession events (Session.start cq memory)).processed
      <+: (runSession events (Session.start cq memory)).posted.map Cqe.userData := by
  obtain ⟨taken, hinv⟩ := inv_runSession events (inv_start h memory)
  obtain ⟨n, -, hdone⟩ := hinv.done
  rw [hdone.processed]
  exact (List.take_prefix n _).map Cqe.userData

theorem processed_prefix_posted_wrap :
    (runSession [.complete smallSqe [] 5, .read, .read, .complete smallSqe [] 5, .read, .read]
        (Session.start freshCq ⟨CPetMemory.Heap.empty, [], []⟩)).processed
      <+: (runSession [.complete smallSqe [] 5, .read, .read, .complete smallSqe [] 5,
        .read, .read] (Session.start freshCq ⟨CPetMemory.Heap.empty, [], []⟩)).posted.map
          Cqe.userData :=
  processed_prefix_posted freshCq_setUp _ _

/-! ## Draining -/

/-- `readFromCq` has returned and left the ring empty. -/
structure Drained (s : Session) : Prop where
  returned : s.pc = .returned
  empty : s.cq.head = s.cq.tail

section Drain

variable {k : Nat} {s : Session} {taken : Nat}

/-- The reader returns only at a failed entry, which it leaves in the ring. -/
theorem Inv.of_returned (h : Inv k s taken) (hpc : s.pc = .returned) :
    ∃ hlt : taken < s.posted.length, s.posted[taken].res < 0 ∧ Done s taken
      ∧ s.cq.head ≠ s.cq.tail := by
  obtain ⟨ht, hat⟩ := h
  rw [hpc] at hat
  obtain ⟨hlt, hdone, hres⟩ := hat
  refine ⟨hlt, ht.front hlt ▸ hres, hdone, ?_⟩
  intro hempty
  exact Nat.ne_of_lt hlt (ht.empty_iff.mp hempty)

/-- Once nothing more is posted, reading goes on keeping the invariant. -/
theorem inv_iterate (h : ∃ taken, Inv k s taken) (n : Nat) :
    ∃ taken, Inv k (readStep^[n] s) taken := by
  refine iterate_invariant (I := fun t => ∃ taken, Inv k t taken) ?_ n s h
  rintro t ⟨taken, ht⟩
  exact inv_readStep ht

/-- The reader posts nothing. -/
theorem readStep_posted (s : Session) : (readStep s).posted = s.posted := by
  generalize readStep s = s', readMove s = hmove
  cases hmove <;> rfl

/-- How far the reader is from its next stop at each place. -/
def pcRank : ReaderPc → Nat
  | .advance => 5
  | .wait => 4
  | .fetch => 3
  | .check _ => 2
  | .process _ => 1
  | .returned => 0

/-- Each entry still to be processed is worth a round of the loop. -/
def rank (s : Session) : Nat :=
  6 * (s.posted.length - s.processed.length) + pcRank s.pc

/-- The reader has returned, or spins on an empty ring. -/
def Stopped (s : Session) : Prop :=
  s.pc = .returned ∨ s.pc = .wait ∧ s.cq.tail = s.cq.head

/-- So many completions have been processed. -/
theorem Done.length {n : Nat} (h : Done s n) (hn : n ≤ s.posted.length) :
    s.processed.length = n := by
  rw [h.processed, List.length_map, List.length_take, Nat.min_eq_left hn]

/-- **PROGRESS**: until it stops, every step brings the reader closer. -/
theorem rank_readStep (h : Inv k s taken) (hgo : ¬ Stopped s) :
    rank (readStep s) < rank s := by
  obtain ⟨ht, hat⟩ := h
  generalize readStep s = s', readMove s = hmove
  cases hmove with
  | spin hpc hempty => exact absurd (Or.inr ⟨hpc, hempty⟩) hgo
  | leave hpc hmore => simp only [rank, hpc, pcRank]; omega
  | fetch hpc => simp only [rank, hpc, pcRank]; omega
  | fail slot text hpc hres => simp only [rank, hpc, pcRank]; omega
  | pass slot hpc hres => simp only [rank, hpc, pcRank]; omega
  | process slot hpc =>
      rw [hpc] at hat
      have hlen := hat.2.1.length ht.taken_le
      have hlt := hat.1
      simp only [rank, hpc, pcRank, List.length_append, List.length_singleton]
      omega
  | advance hpc => simp only [rank, hpc, pcRank]; omega
  | returned hpc => exact absurd (Or.inl hpc) hgo

/-- The reader stops after finitely many steps, with the same entries posted. -/
theorem reaches_stopped (h : Inv k s taken) :
    ∃ t, Reaches readStep s t ∧ (t.posted = s.posted ∧ ∃ taken, Inv k t taken)
      ∧ Stopped t := by
  refine reaches_of_rank (I := fun t => t.posted = s.posted ∧ ∃ taken, Inv k t taken)
    rank ?_ s ⟨rfl, taken, h⟩
  rintro t ⟨hposted, taken, ht⟩ hgo
  exact ⟨⟨(readStep_posted t).trans hposted, inv_readStep ht⟩, rank_readStep ht hgo⟩

/-- **NEVER DRAINED**, as long as the invariant holds. -/
theorem Inv.not_drained (h : Inv k s taken) : ¬ Drained s := by
  intro hdrained
  obtain ⟨-, -, -, hne⟩ := h.of_returned hdrained.returned
  exact hne hdrained.empty

/-- **ALL SUCCEEDED**: the reader processes everything posted, and then spins on
    the empty ring for ever. -/
theorem spins_of_succeeded (h : Inv k s taken) (hres : ∀ e ∈ s.posted, ¬ e.res < 0) :
    (∃ t, Reaches readStep s t ∧ t.processed = s.posted.map Cqe.userData
      ∧ t.cq.head = t.cq.tail ∧ readStep t = t)
    ∧ ∀ n, (readStep^[n] s).pc ≠ .returned := by
  have hnever : ∀ (t : Session) (taken : Nat), Inv k t taken → t.posted = s.posted →
      t.pc ≠ .returned := by
    intro t taken' ht hposted hpc
    obtain ⟨hlt, hneg, -, -⟩ := ht.of_returned hpc
    exact hres _ (hposted ▸ List.getElem_mem hlt) hneg
  refine ⟨?_, ?_⟩
  · obtain ⟨t, hreach, ⟨hposted, taken', ht⟩, hstop⟩ := reaches_stopped h
    rcases hstop with hpc | ⟨hpc, hempty⟩
    · exact absurd hpc (hnever t taken' ht hposted)
    · have hall := ht.tracks.empty_iff.mp hempty.symm
      have hdone := ht.atPc
      rw [hpc] at hdone
      refine ⟨t, hreach, ?_, hempty.symm, ?_⟩
      · rw [hdone.processed, hall, List.take_length, hposted]
      · simp only [readStep, hpc, if_pos hempty]
  · intro n
    have hposted := iterate_invariant (I := fun t => t.posted = s.posted)
      (fun t ht => (readStep_posted t).trans ht) n s rfl
    obtain ⟨taken', ht⟩ := inv_iterate ⟨taken, h⟩ n
    exact hnever _ taken' ht hposted

/-- **ONE FAILED**: the reader returns at the first failed entry, having
    processed those before it, and leaves it in the ring. -/
theorem returns_of_failed (h : Inv k s taken) (hres : ∃ e ∈ s.posted, e.res < 0) :
    ∃ t, Reaches readStep s t ∧ t.pc = .returned ∧ t.cq.head ≠ t.cq.tail
      ∧ ∃ (n : Nat) (hn : n < s.posted.length), s.posted[n].res < 0
        ∧ (∀ e ∈ s.posted.take n, ¬ e.res < 0)
        ∧ t.processed = (s.posted.take n).map Cqe.userData := by
  obtain ⟨t, hreach, ⟨hposted, taken', ht⟩, hstop⟩ := reaches_stopped h
  rcases hstop with hpc | ⟨hpc, hempty⟩
  · obtain ⟨hlt, hneg, hdone, hne⟩ := ht.of_returned hpc
    refine ⟨t, hreach, hpc, hne, taken', hposted ▸ hlt, ?_, ?_, ?_⟩
    · simpa only [hposted] using hneg
    · exact hposted ▸ hdone.succeeded
    · exact hposted ▸ hdone.processed
  · -- on an empty ring everything has been processed, the failed entry too
    have hall := ht.tracks.empty_iff.mp hempty.symm
    have hdone := ht.atPc
    rw [hpc] at hdone
    obtain ⟨e, he, hneg⟩ := hres
    have hsucceeded := hdone.succeeded e
    rw [hall, List.take_length, hposted] at hsucceeded
    exact absurd hneg (hsucceeded he)

end Drain

/-- **NEVER DRAINED**: whatever the kernel posts, with whatever results, and
    however the reader runs meanwhile and afterwards, it never returns with the
    ring empty. -/
theorem readFromCq_never_drains {k : Nat} {cq : RingBuffer Cqe} (h : cq.SetUp k) (memory : IoMemory)
    (events : List Event) :
    ¬ ∃ n, Drained (readStep^[n] (runSession events (Session.start cq memory))) := by
  rintro ⟨n, hdrained⟩
  obtain ⟨taken, hinv⟩ := inv_iterate (inv_runSession events (inv_start h memory)) n
  exact hinv.not_drained hdrained

theorem readFromCq_never_drains_wrap :
    ¬ ∃ n, Drained (readStep^[n] (runSession [.complete smallSqe [] 5]
      (Session.start freshCq ⟨CPetMemory.Heap.empty, [], []⟩))) :=
  readFromCq_never_drains freshCq_setUp _ _

/-- One completion fails with `-EIO`: the reader returns after three steps, and
    the entry is still in the ring. -/
theorem drained_fails_eio :
    ¬ ∀ (k : Nat) (cq : RingBuffer Cqe), cq.SetUp k → ∀ (memory : IoMemory)
        (events : List Event),
          ∃ n, Drained (readStep^[n] (runSession events (Session.start cq memory))) := by
  intro h
  obtain ⟨n, hdrained⟩ := h 1 freshCq freshCq_setUp ⟨CPetMemory.Heap.empty, [], []⟩
    [.complete smallSqe [] (-5)]
  obtain ⟨taken, hinv⟩ := inv_iterate
    (inv_runSession [.complete smallSqe [] (-5)] (inv_start freshCq_setUp _)) n
  exact hinv.not_drained hdrained

end CPetCompletion
