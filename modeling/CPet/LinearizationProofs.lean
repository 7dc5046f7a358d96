import CPet.HeapBalanceProofs
import CPet.VectoredReadProofs
import Mathlib.Data.List.Flatten

/-! # The asynchronous reader, one completion at a time

    The kernel fills buffers and posts results whenever it likes, between any
    two steps of `readFromCq`.  All of that could as well have happened in
    turns: read one file, print it, free it, read the next.

    The LOG of a run lists the completions that took effect, in order.  After
    any run the memory, heap and output alike, is what serving the processed
    part of the log one completion at a time leaves behind, with the rest of
    the log filled in on top.  The step that carries this moves a `processEntry`
    before the fills of other requests: requests do not share blocks, so the two
    commute.

    So the interleaving cannot be seen in the output.  What is printed is the
    files read, in the order of their completions, exactly when every read
    filled its buffers. -/

namespace CPetLinearization

open CPetRun CPetRing CPetMemory CPetOwnership CPetSubmission CPetRequest CPetIovec
open CPetCompletion CPetVectoredRead CPetHeapBalance

/-! ## The log -/

/-- A completion: the queue entry, the bytes stored for it, and its result. -/
structure Completion where
  sqe : Sqe
  bytes : List UInt8
  res : Int32

/-- The entry posted for a completion. -/
def Completion.cqe (c : Completion) : Cqe := ⟨c.sqe.userData, c.res⟩

/-- The completions of a run that found room in the ring. -/
def served : List Event → Session → List Completion
  | [], _ => []
  | .complete sqe bytes res :: events, t =>
      if t.cq.HasRoom then ⟨sqe, bytes, res⟩ :: served events (complete sqe bytes res t)
      else served events t
  | .read :: events, t => served events (readStep t)

/-- The kernel's stores for a list of completions. -/
def fillAll (log : List Completion) (m : IoMemory) : IoMemory :=
  log.foldl (fun m c => kernelRead c.sqe c.bytes m) m

/-- The completions served in turn: each is read, printed and freed before the
    next. -/
def serveAll (log : List Completion) (m : IoMemory) : IoMemory :=
  log.foldl (fun m c => serve c.sqe c.bytes m) m

/-- The completion is for this request. -/
def Completion.For (c : Completion) (r : Request) : Prop :=
  c.sqe.userData = r.userData ∧ c.sqe.addr = r.addr

/-- Each completion is for a request, and no two for the same. -/
structure Serves (rs : List Request) (log : List Completion) : Prop where
  once : (log.map fun c => c.sqe.userData).Nodup
  submitted : ∀ c ∈ log, ∃ r ∈ rs, c.For r

/-! ## Requests do not disturb each other -/

/-- A scatter and a release outside its table can be swapped. -/
theorem scatter_free (entries : List IoVec) :
    ∀ (bytes : List UInt8) (heap : Heap IoObject) {a : Nat}, a ∉ bases entries →
      scatter entries bytes (heap.free a) = (scatter entries bytes heap).free a := by
  induction entries with
  | nil => intro bytes heap a _; rfl
  | cons e es ih =>
      intro bytes heap a ha
      rw [bases, List.map_cons, List.mem_cons, not_or] at ha
      rw [scatter, modify_free heap _ (Ne.symm ha.1), ih _ _ ha.2]
      rfl

/-- Filling buffers and freeing others commute. -/
theorem scatter_freeAll (entries : List IoVec) (bytes : List UInt8) (as : List Nat) :
    ∀ heap : Heap IoObject, (∀ a ∈ as, a ∉ bases entries) →
      scatter entries bytes (heap.freeAll as) = (scatter entries bytes heap).freeAll as := by
  induction as with
  | nil => intro heap _; rfl
  | cons a as ih =>
      intro heap h
      have hrest := ih (heap.free a) fun b hb => h b (List.mem_cons_of_mem _ hb)
      rw [scatter_free entries bytes heap (h a List.mem_cons_self)] at hrest
      exact hrest

theorem mem_bases_take {a n : Nat} {entries : List IoVec} (h : a ∈ bases (entries.take n)) :
    a ∈ bases entries := by
  rw [bases, List.map_take] at h
  exact List.mem_of_mem_take h

section Commute

variable {m : IoMemory} {r r' : Request}

/-- **STEP, COMMUTE**: processing one request and filling another can be swapped. -/
theorem processEntry_kernelRead (hat : RequestAt m.heap r) (hat' : RequestAt m.heap r')
    (hapart : ∀ a ∈ r.blocks, a ∉ r'.blocks) {sqe : Sqe} (haddr : sqe.addr = r'.addr)
    (bytes : List UInt8) :
    processEntry r.userData (kernelRead sqe bytes m)
      = kernelRead sqe bytes (processEntry r.userData m) := by
  have hfree : ∀ a ∈ released r, a ∉ bases (r'.entries.take sqe.len.toNat) := by
    intro a ha hmem
    refine hapart a ((blocks_perm r).mem_iff.mpr (List.mem_append_left _ ha)) ?_
    exact List.mem_cons_of_mem _ (List.mem_cons_of_mem _ (mem_bases_take hmem))
  have hread := kernelRead_eq hat' haddr bytes
  -- each side finds its request as it was
  have hatRead : RequestAt (kernelRead sqe bytes m).heap r :=
    requestAt_congr hat fun a _ => sameShape_kernelRead sqe bytes m a
  have hheap : (processEntry r.userData m).heap = m.heap.freeAll (released r) := by
    rw [processEntry_eq hat, released, Heap.freeAll, Heap.freeAll, List.foldl_append]
    rfl
  have hatProcess : RequestAt (processEntry r.userData m).heap r' := by
    refine requestAt_congr hat' ?_
    intro a ha
    refine SameShape.of_eq ?_
    rw [hheap, freeAll_live, if_neg]
    intro hmem
    exact hapart a ((blocks_perm r).mem_iff.mpr (List.mem_append_left _ hmem)) ha
  have hgather : gather (scatter (r'.entries.take sqe.len.toNat) bytes m.heap) r.entries
      = gather m.heap r.entries := by
    refine gather_congr ?_
    intro e he
    refine scatter_live_of_not_mem _ _ _ (hfree _ ?_)
    exact List.mem_append_left _ (List.mem_map_of_mem he)
  have hswap := scatter_freeAll (r'.entries.take sqe.len.toNat) bytes (released r) m.heap hfree
  rw [released, Heap.freeAll, Heap.freeAll, List.foldl_append, List.foldl_append] at hswap
  rw [kernelRead_eq hatProcess haddr, processEntry_eq hatRead, processEntry_eq hat, hread]
  simp only [hgather, IoMemory.mk.injEq, and_self, and_true]
  exact hswap.symm

end Commute

/-- The last completion is filled in last, -/
theorem fillAll_append (log : List Completion) (c : Completion) (m : IoMemory) :
    fillAll (log ++ [c]) m = kernelRead c.sqe c.bytes (fillAll log m) := by
  rw [fillAll, List.foldl_append]
  rfl

/-- and served last. -/
theorem serveAll_append (log : List Completion) (c : Completion) (m : IoMemory) :
    serveAll (log ++ [c]) m = serve c.sqe c.bytes (serveAll log m) := by
  rw [serveAll, List.foldl_append]
  rfl

/-- Fills change what buffers contain and nothing else. -/
theorem sameShape_fillAll (log : List Completion) :
    ∀ (m : IoMemory) (a : Nat), SameShape m.heap (fillAll log m).heap a := by
  induction log with
  | nil => intro m a; rfl
  | cons c log ih =>
      intro m a
      exact (ih (kernelRead c.sqe c.bytes m) a).trans (sameShape_kernelRead _ _ m a)

/-! ## The invariant -/

/-- The memory of a session is that of serving what has been processed in turn,
    filled with what has only been posted. -/
structure Linear (m₀ : IoMemory) (log : List Completion) (t : Session) : Prop where
  posted : t.posted = log.map Completion.cqe
  memory : t.memory = fillAll (log.drop t.processed.length)
    (serveAll (log.take t.processed.length) m₀)

section Step

variable {base : Nat → Prop} {rs done pending : List Request} {t : Session}
variable {log : List Completion} {m₀ : IoMemory} {k taken : Nat}

/-- What is served once is posted once. -/
theorem Serves.oncePosted (h : Serves rs log) : OncePosted rs (log.map Completion.cqe) where
  once := by
    rw [List.map_map]
    exact h.once
  submitted := by
    intro e he
    obtain ⟨c, hc, rfl⟩ := List.mem_map.mp he
    obtain ⟨r, hr, huser, -⟩ := h.submitted c hc
    exact ⟨r, hr, huser.symm⟩

/-- What is posted and not processed is for a pending request. -/
theorem Serves.mem_pending (h : Serves rs log) (hledger : Ledger base rs t done pending)
    {n : Nat} (hprocessed : t.processed = ((log.take n).map Completion.cqe).map Cqe.userData)
    {c : Completion} (hc : c ∈ log.drop n) : ∃ r ∈ pending, c.For r := by
  obtain ⟨r, hr, hfor⟩ := h.submitted c (List.mem_of_mem_drop hc)
  rcases List.mem_append.mp (hledger.split.mem_iff.mpr hr) with hdone | hpending
  · -- then its header was processed, and posted twice
    have hmem : c.sqe.userData ∈ (log.take n).map fun d => d.sqe.userData := by
      rw [List.map_map] at hprocessed
      rw [hfor.1]
      exact hprocessed ▸ hledger.processed ▸ List.mem_map_of_mem hdone
    have hnodup := h.once
    rw [← List.take_append_drop n log, List.map_append] at hnodup
    exact absurd rfl
      ((List.nodup_append.mp hnodup).2.2 _ hmem _ (List.mem_map_of_mem hc))
  · exact ⟨r, hpending, hfor⟩

/-- Two completions are for two requests. -/
theorem Serves.request_ne (h : Serves rs log) {n : Nat} {c c' : Completion}
    {rest : List Completion} (hdrop : log.drop n = c :: rest) (hc' : c' ∈ rest) {r r' : Request}
    (hfor : c.For r) (hfor' : c'.For r') : r' ≠ r := by
  rintro rfl
  have hnodup := h.once
  rw [← List.take_append_drop n log, hdrop, List.map_append, List.map_cons] at hnodup
  refine (List.nodup_cons.mp (List.nodup_append.mp hnodup).2.1).1 ?_
  exact (hfor'.1.trans hfor.1.symm) ▸ List.mem_map_of_mem hc'

/-- **STEP, KERNEL**: a completion joins the log, and fills its buffers last. -/
theorem linear_complete (h : Linear m₀ log t) (hlen : t.processed.length ≤ log.length)
    (sqe : Sqe) (bytes : List UInt8) (res : Int32) (hroom : t.cq.HasRoom) :
    Linear m₀ (log ++ [⟨sqe, bytes, res⟩]) (complete sqe bytes res t) := by
  rw [complete, if_pos hroom]
  refine ⟨?_, ?_⟩
  · rw [List.map_append, ← h.posted]
    rfl
  · show kernelRead sqe bytes t.memory = fillAll ((log ++ [_]).drop t.processed.length)
      (serveAll ((log ++ [_]).take t.processed.length) m₀)
    rw [List.drop_append_of_le_length hlen, List.take_append_of_le_length hlen,
      fillAll_append, ← h.memory]

/-- **STEP, PROCESS**: printing and freeing the oldest request could as well have
    been done before the later ones were filled. -/
theorem linear_process (h : Linear m₀ log t) (hserves : Serves rs log)
    (hledger : Ledger base rs t done pending)
    (hprocessed : t.processed
      = ((log.take t.processed.length).map Completion.cqe).map Cqe.userData)
    (hlt : t.processed.length < log.length) :
    processEntry log[t.processed.length].sqe.userData t.memory
      = fillAll (log.drop (t.processed.length + 1))
          (serveAll (log.take (t.processed.length + 1)) m₀) := by
  generalize hn : t.processed.length = n at *
  generalize hc : log[n] = c
  generalize hrest : log.drop (n + 1) = rest
  generalize hX : serveAll (log.take n) m₀ = X
  have hdrop : log.drop n = c :: rest := by
    rw [List.drop_eq_getElem_cons hlt, hc, hrest]
  have hmemory : t.memory = fillAll rest (kernelRead c.sqe c.bytes X) := by
    rw [h.memory, hn, hdrop, hX]
    rfl
  obtain ⟨r, hr, hfor⟩ := hserves.mem_pending hledger hprocessed
    (hdrop ▸ List.mem_cons_self : c ∈ log.drop n)
  obtain ⟨before, after, rfl⟩ := List.append_of_mem hr
  have hstanding : Standing (kernelRead c.sqe c.bytes X).heap
      (fun a => base a ∨ a ∈ done.map Request.addr) (r :: (before ++ after)) := by
    refine Standing.congr (hledger.standing.perm List.perm_middle) ?_
    intro a
    rw [hmemory]
    exact Eq.symm (sameShape_fillAll rest _ a)
  have hserve : serveAll (log.take (n + 1)) m₀
      = processEntry r.userData (kernelRead c.sqe c.bytes X) := by
    rw [List.take_succ_eq_append_getElem hlt, hc, serveAll_append, hX, ← hfor.1]
    rfl
  rw [hmemory, hserve, hfor.1]
  refine foldl_commute (I := fun m => Standing m.heap
    (fun a => base a ∨ a ∈ done.map Request.addr) (r :: (before ++ after)))
    (g := processEntry r.userData) rest ?_ _ hstanding
  intro c' hc' m hm
  refine ⟨hm.congr (sameShape_kernelRead c'.sqe c'.bytes m), ?_⟩
  -- a later completion is for another pending request
  obtain ⟨r', hr', hfor'⟩ := hserves.mem_pending hledger hprocessed
    (hdrop ▸ List.mem_cons_of_mem _ hc' : c' ∈ log.drop n)
  have hne : r' ≠ r := hserves.request_ne hdrop hc' hfor hfor'
  have hother : r' ∈ before ++ after := by
    rcases List.mem_cons.mp (List.perm_middle.mem_iff.mp hr') with heq | hmem
    · exact absurd heq hne
    · exact hmem
  have hdistinct := hm.owns.distinct
  rw [List.flatMap_cons] at hdistinct
  refine processEntry_kernelRead (hm.standing r List.mem_cons_self)
    (hm.standing r' (List.mem_cons_of_mem _ hother)) ?_ hfor'.2 c'.bytes
  intro a ha ha'
  exact (List.nodup_append.mp hdistinct).2.2 a ha a
    (List.mem_flatMap.mpr ⟨r', hother, ha'⟩) rfl

/-- **STEP, READER**. -/
theorem linear_readStep (h : Linear m₀ log t) (hserves : Serves rs log)
    (hledger : Ledger base rs t done pending) (hinv : Inv k t taken) :
    Linear m₀ log (readStep t) := by
  obtain ⟨n, hn, hdone⟩ := hinv.done
  have hlen := hdone.length hn
  have hprocessed : t.processed
      = ((log.take t.processed.length).map Completion.cqe).map Cqe.userData := by
    rw [hlen, List.map_take, ← h.posted]
    exact hdone.processed
  generalize readStep t = t', readMove t = hmove
  cases hmove with
  | process slot hpc =>
      have hat := hinv.atPc
      rw [hpc] at hat
      obtain ⟨hlt, hdone', rfl, -⟩ := hat
      have htaken := hdone'.length hinv.tracks.taken_le
      have hlt' : t.processed.length < log.length := by
        rw [htaken, ← List.length_map (f := Completion.cqe), ← h.posted]
        exact hlt
      have hfront : t.cq.front.userData = log[t.processed.length].sqe.userData := by
        rw [hinv.tracks.front hlt]
        simp only [h.posted, List.getElem_map, htaken]
        rfl
      refine ⟨h.posted, ?_⟩
      show processEntry t.cq.front.userData t.memory
        = fillAll (log.drop (t.processed ++ [_]).length)
            (serveAll (log.take (t.processed ++ [_]).length) m₀)
      rw [hfront, List.length_append, List.length_singleton]
      exact linear_process h hserves hledger hprocessed hlt'
  -- no other step touches the memory
  | spin hpc hempty => exact h
  | leave hpc hmore => exact ⟨h.posted, h.memory⟩
  | fetch hpc => exact ⟨h.posted, h.memory⟩
  | fail slot text hpc hres => exact ⟨h.posted, h.memory⟩
  | pass slot hpc hres => exact ⟨h.posted, h.memory⟩
  | advance hpc => exact ⟨h.posted, h.memory⟩
  | returned hpc => exact h

theorem linear_start (cq : RingBuffer Cqe) (m₀ : IoMemory) :
    Linear m₀ [] (Session.start cq m₀) := ⟨rfl, rfl⟩

/-- **RUN**: along every run of both sides the memory stays that of serving in
    turn. -/
theorem linear_runSession (events : List Event) :
    ∀ {t : Session} {log : List Completion} {taken : Nat} {done pending : List Request},
      Linear m₀ log t → Inv k t taken → Ledger base rs t done pending →
      Serves rs (log ++ served events t) →
        Linear m₀ (log ++ served events t) (runSession events t) := by
  induction events with
  | nil =>
      intro t log taken done pending h _ _ _
      rw [served, List.append_nil]
      exact h
  | cons event events ih =>
      intro t log taken done pending h hinv hledger hserves
      have hserved : Serves rs log :=
        ⟨(List.nodup_append.mp (List.map_append ▸ hserves.once)).1,
          fun c hc => hserves.submitted c (List.mem_append_left _ hc)⟩
      obtain ⟨n, hn, hdone⟩ := hinv.done
      have hlen : t.processed.length ≤ log.length := by
        rw [hdone.length hn, ← List.length_map (f := Completion.cqe), ← h.posted]
        exact hn
      cases event with
      | complete sqe bytes res =>
          by_cases hroom : t.cq.HasRoom
          · rw [served, if_pos hroom, List.append_cons] at hserves ⊢
            exact ih (linear_complete h hlen sqe bytes res hroom) (inv_complete hinv sqe bytes res)
              (ledger_complete hledger sqe bytes res) hserves
          · have hsame : complete sqe bytes res t = t := by rw [complete, if_neg hroom]
            rw [served, if_neg hroom] at hserves ⊢
            show Linear m₀ _ (runSession events (complete sqe bytes res t))
            rw [hsame]
            exact ih h hinv hledger hserves
      | read =>
          have hposted : OncePosted rs t.posted := h.posted ▸ hserved.oncePosted
          obtain ⟨taken', hinv'⟩ := inv_readStep hinv
          obtain ⟨done', pending', hledger'⟩ := ledger_readStep hledger hinv hposted
          exact ih (linear_readStep h hserved hledger hinv) hinv' hledger' hserves

end Step

/-! ## Whole sessions -/

/-- The entries submitted are those of the requests. -/
theorem mem_run_submitted (calls : List Call) :
    ∀ {s : IoState} {sqe : Sqe}, sqe ∈ (run calls s).submitted →
      sqe ∈ s.submitted
        ∨ ∃ r ∈ runRequests calls s, sqe.userData = r.userData ∧ sqe.addr = r.addr := by
  induction calls with
  | nil => intro s sqe h; exact Or.inl h
  | cons c cs ih =>
      intro s sqe h
      rcases ih h with hold | ⟨r, hr, hfor⟩
      · rw [submitToSq_submitted, List.mem_append, List.mem_singleton] at hold
        rcases hold with hbefore | rfl
        · exact Or.inl hbefore
        · exact Or.inr ⟨callRequest s c, List.mem_cons_self, callSqe_userData s c,
            callSqe_addr s c⟩
      · exact Or.inr ⟨r, List.mem_cons_of_mem _ hr, hfor⟩

/-- The memory that a run of calls leaves to the reader. -/
def submittedMemory (heap : Heap IoObject) (ring : SqRing) (calls : List Call)
    (printed : List UInt8) : IoMemory :=
  ⟨(run calls (IoState.init heap ring)).heap, printed, []⟩

/-- The kernel completes entries that were submitted, each once at most. -/
structure KernelServes (heap : Heap IoObject) (ring : SqRing) (calls : List Call)
    (log : List Completion) : Prop where
  once : (log.map fun c => c.sqe.userData).Nodup
  submitted : ∀ c ∈ log, c.sqe ∈ (run calls (IoState.init heap ring)).submitted

/-- The kernel serves the requests of the calls. -/
theorem KernelServes.serves {heap : Heap IoObject} {ring : SqRing} {calls : List Call}
    {log : List Completion} (h : KernelServes heap ring calls log) :
    Serves (runRequests calls (IoState.init heap ring)) log where
  once := h.once
  submitted := by
    intro c hc
    rcases mem_run_submitted calls (h.submitted c hc) with hbefore | hrun
    · exact nomatch hbefore
    · exact hrun

section Session

variable (heap : Heap IoObject) (ring : SqRing) (calls : List Call) (printed : List UInt8)
variable {k : Nat} {cq : RingBuffer Cqe} (events : List Event)

/-- The invariant holds after every run from the start. -/
theorem linear_session (hcq : cq.SetUp k)
    (hkernel : KernelServes heap ring calls
      (served events (Session.start cq (submittedMemory heap ring calls printed)))) :
    Linear (submittedMemory heap ring calls printed)
      (served events (Session.start cq (submittedMemory heap ring calls printed)))
      (runSession events (Session.start cq (submittedMemory heap ring calls printed))) :=
  linear_runSession events (linear_start cq _) (inv_start hcq _)
    (ledger_start (standing_init heap ring calls) cq printed) hkernel.serves

/-- What has been processed is the first part of the log. -/
theorem processed_session (hcq : cq.SetUp k)
    (hkernel : KernelServes heap ring calls
      (served events (Session.start cq (submittedMemory heap ring calls printed)))) :
    (runSession events (Session.start cq (submittedMemory heap ring calls printed))).processed
      <+: (served events (Session.start cq (submittedMemory heap ring calls printed))).map
        fun c => c.sqe.userData := by
  obtain ⟨taken, hinv⟩ :=
    inv_runSession events (inv_start hcq (submittedMemory heap ring calls printed))
  obtain ⟨n, -, hdone⟩ := hinv.done
  rw [hdone.processed, (linear_session heap ring calls printed events hcq hkernel).posted]
  have hstarts := ((List.take_prefix n (served events (Session.start cq
    (submittedMemory heap ring calls printed)))).map Completion.cqe).map Cqe.userData
  rw [List.map_take, List.map_map] at hstarts
  exact hstarts

/-- **ONE AT A TIME**: however the kernel's fills and posts fall between the
    reader's steps, a run leaves the memory that is left when the completions
    processed are served in turn, one file read, printed and freed before the
    next, and those only posted are filled in afterwards. -/
theorem session_linearizes (hcq : cq.SetUp k)
    (hkernel : KernelServes heap ring calls
      (served events (Session.start cq (submittedMemory heap ring calls printed)))) :
    ∃ now later,
      served events (Session.start cq (submittedMemory heap ring calls printed)) = now ++ later
      ∧ (runSession events (Session.start cq
          (submittedMemory heap ring calls printed))).processed
          = now.map (fun c => c.sqe.userData)
      ∧ (runSession events (Session.start cq (submittedMemory heap ring calls printed))).memory
          = fillAll later (serveAll now (submittedMemory heap ring calls printed)) := by
  have hprocessed := processed_session heap ring calls printed events hcq hkernel
  have hlinear := linear_session heap ring calls printed events hcq hkernel
  refine ⟨_, _, (List.take_append_drop _ _).symm, ?_, hlinear.memory⟩
  rw [List.map_take]
  exact List.prefix_iff_eq_take.mp hprocessed

end Session

/-- Two files are submitted, both entries consumed. -/
def twoFiles : List Call :=
  [⟨3, .regular 2, fun _ _ => 88, .enters true⟩, ⟨4, .regular 3, fun _ _ => 88, .enters true⟩]

/-- Their entries. -/
def firstSqe : Sqe := ⟨3, ioringOpReadv, 0, 1, 2, 0⟩

def secondSqe : Sqe := ⟨4, ioringOpReadv, 3, 1, 5, 0⟩

/-- The second file completes first, and the first one while the reader is about
    to print the second. -/
def crossedEvents : List Event :=
  [.complete secondSqe [106, 107, 108] 3, .read, .read, .read,
    .complete firstSqe [104, 105] 2, .read, .read]

theorem kernelServes_crossed :
    KernelServes Heap.empty freshRing twoFiles
      (served crossedEvents
        (Session.start freshCq (submittedMemory Heap.empty freshRing twoFiles []))) where
  once := by decide
  submitted := by decide

theorem session_linearizes_crossed :
    ∃ now later,
      served crossedEvents
        (Session.start freshCq (submittedMemory Heap.empty freshRing twoFiles []))
          = now ++ later
      ∧ (runSession crossedEvents (Session.start freshCq
          (submittedMemory Heap.empty freshRing twoFiles []))).processed
          = now.map (fun c => c.sqe.userData)
      ∧ (runSession crossedEvents (Session.start freshCq
          (submittedMemory Heap.empty freshRing twoFiles []))).memory
          = fillAll later (serveAll now (submittedMemory Heap.empty freshRing twoFiles [])) :=
  session_linearizes Heap.empty freshRing twoFiles [] crossedEvents freshCq_setUp
    kernelServes_crossed

/-! ## What is printed -/

/-- The bytes of a completion's buffers once it is filled in. -/
def page (heap : Heap IoObject) (c : Completion) : List UInt8 :=
  match heap.live c.sqe.userData with
  | some (.iovecArray array len) =>
      match heap.live array with
      | some (.iovecs entries) =>
          gather (scatter (entries.take c.sqe.len.toNat) c.bytes heap)
            (entries.take len.toNat)
      | _ => []
  | _ => []

section Page

variable {heap heap' : Heap IoObject} {r : Request} {c : Completion}

/-- A page is what the buffers of its request hold after the read. -/
theorem page_eq (hat : RequestAt heap r) (hfor : c.For r) :
    page heap c = gather (scatter (r.entries.take c.sqe.len.toNat) c.bytes heap) r.entries := by
  obtain ⟨len, hlen, hheader⟩ := hat.header
  simp only [page, hfor.1, hheader, hat.table, hlen, List.take_length]

/-- The buffers of a request are live. -/
theorem buffersLive_of_requestAt (hat : RequestAt heap r) : BuffersLive heap r.entries := by
  intro e he
  obtain ⟨block, -, hblock⟩ := hat.buffers e he
  exact ⟨block, hblock⟩

/-- A scatter changes an object according to that object alone. -/
theorem scatter_live_congr (entries : List IoVec) :
    ∀ (bytes : List UInt8) {h h' : Heap IoObject} {a : Nat}, h'.live a = h.live a →
      (scatter entries bytes h').live a = (scatter entries bytes h).live a := by
  induction entries with
  | nil => intro bytes h h' a heq; exact heq
  | cons e es ih =>
      intro bytes h h' a heq
      refine ih _ ?_
      by_cases ha : a = e.iovBase
      · rw [ha, modify_live_self, modify_live_self, ← ha, heq]
      · rw [modify_live_of_ne h _ ha, modify_live_of_ne h' _ ha, heq]

/-- A page depends on the blocks of its request alone. -/
theorem page_congr (hat : RequestAt heap r) (hfor : c.For r)
    (hsame : ∀ a ∈ r.blocks, heap'.live a = heap.live a) : page heap' c = page heap c := by
  have hat' : RequestAt heap' r :=
    requestAt_congr hat fun a ha => SameShape.of_eq (hsame a ha)
  rw [page_eq hat hfor, page_eq hat' hfor]
  refine gather_congr ?_
  intro e he
  refine scatter_live_congr _ _ (hsame _ ?_)
  exact List.mem_cons_of_mem _ (List.mem_cons_of_mem _ (List.mem_map_of_mem he))

/-- A page starts with the bytes read, and is as long as all buffers. -/
theorem page_prefix (hat : RequestAt heap r) (hfor : c.For r)
    (hfits : c.bytes.length ≤ capacity (r.entries.take c.sqe.len.toNat)) :
    c.bytes <+: page heap c ∧ (page heap c).length = capacity r.entries := by
  have hlive := buffersLive_of_requestAt hat
  have hnodup : (bases r.entries).Nodup :=
    (List.nodup_cons.mp (List.nodup_cons.mp hat.distinct).2).2
  rw [page_eq hat hfor]
  refine ⟨?_, length_gather _ (buffersLive_scatter hlive _ _)⟩
  -- the entry may cover fewer buffers than the table has
  have hcovered := prefix_gather_scatter (r.entries.take c.sqe.len.toNat) c.bytes heap
    (fun e he => hlive e (List.mem_of_mem_take he))
    (hnodup.sublist ((List.take_sublist _ _).map _)) hfits
  refine hcovered.trans ?_
  conv => rhs; rw [← List.take_append_drop c.sqe.len.toNat r.entries]
  rw [gather, gather, List.flatMap_append, List.take_append_drop]
  exact List.prefix_append _ _

end Page

section Serve

variable {base : Nat → Prop} {rs : List Request} {m : IoMemory} {r : Request}
  {c : Completion}

/-- Serving a completion concerns the blocks of its request alone. -/
theorem serve_live (hat : RequestAt m.heap r) (hfor : c.For r) {a : Nat}
    (ha : a ∉ r.blocks) : (serve c.sqe c.bytes m).heap.live a = m.heap.live a := by
  have hat' : RequestAt (kernelRead c.sqe c.bytes m).heap r :=
    requestAt_congr hat fun b _ => sameShape_kernelRead _ _ m b
  have hbuffers : a ∉ bases r.entries := fun hmem =>
    ha (List.mem_cons_of_mem _ (List.mem_cons_of_mem _ hmem))
  have hheader : a ≠ r.userData := by
    rintro rfl
    exact ha List.mem_cons_self
  rw [serve, hfor.1, processEntry_eq hat', kernelRead_eq hat hfor.2]
  show ((Heap.freeAll _ _).free r.userData).live a = _
  rw [free_live_of_ne _ hheader, freeAll_live, if_neg hbuffers]
  exact scatter_live_of_not_mem _ _ _ fun hmem => hbuffers (mem_bases_take hmem)

/-- The request of the first completion, and that the others are for others. -/
theorem Serves.split {log : List Completion} (h : Serves rs (c :: log)) :
    ∃ r others, rs.Perm (r :: others) ∧ c.For r ∧ Serves others log := by
  obtain ⟨r, hr, hfor⟩ := h.submitted c List.mem_cons_self
  obtain ⟨before, after, rfl⟩ := List.append_of_mem hr
  have honce := List.nodup_cons.mp (List.map_cons ▸ h.once)
  refine ⟨r, before ++ after, List.perm_middle, hfor, honce.2, ?_⟩
  intro c' hc'
  obtain ⟨r', hr', hfor'⟩ := h.submitted c' (List.mem_cons_of_mem _ hc')
  rcases List.mem_cons.mp (List.perm_middle.mem_iff.mp hr') with rfl | hmem
  · -- two completions for one request
    exact absurd ((hfor'.1.trans hfor.1.symm) ▸ List.mem_map_of_mem hc') honce.1
  · exact ⟨r', hmem, hfor'⟩

/-- **RUN, SERVE**: serving in turn prints the pages as they stand at the start. -/
theorem serveAll_printed (log : List Completion) :
    ∀ {m : IoMemory} {base : Nat → Prop} {rs : List Request}, Standing m.heap base rs →
      Serves rs log →
        (serveAll log m).printed = m.printed ++ log.flatMap (page m.heap) := by
  induction log with
  | nil => intro m base rs _ _; exact (List.append_nil _).symm
  | cons c log ih =>
      intro m base rs hstanding hserves
      obtain ⟨r, others, hperm, hfor, hserves'⟩ := hserves.split
      have hst := hstanding.perm hperm
      have hat := hst.standing r List.mem_cons_self
      obtain ⟨hst', -⟩ := standing_processEntry (m := kernelRead c.sqe c.bytes m)
        (hst.congr (sameShape_kernelRead c.sqe c.bytes m))
      rw [← hfor.1, ← serve] at hst'
      -- the pages of the others are the same after this one is served
      have hpages : log.flatMap (page (serve c.sqe c.bytes m).heap)
          = log.flatMap (page m.heap) := by
        refine List.flatMap_congr ?_
        intro c' hc'
        obtain ⟨r', hr', hfor'⟩ := hserves'.submitted c' hc'
        refine page_congr (hst.standing r' (List.mem_cons_of_mem _ hr')) hfor' ?_
        intro a ha'
        refine serve_live hat hfor ?_
        intro ha
        have hdistinct := hst.owns.distinct
        rw [List.flatMap_cons] at hdistinct
        exact (List.nodup_append.mp hdistinct).2.2 a ha a
          (List.mem_flatMap.mpr ⟨r', hr', ha'⟩) rfl
      show (serveAll log (serve c.sqe c.bytes m)).printed = _
      rw [ih hst' hserves', hpages, serve_printed hat hfor.2 hfor.1, List.flatMap_cons,
        page_eq hat hfor, List.append_assoc]

end Serve

/-- Fills print nothing. -/
theorem fillAll_printed (log : List Completion) :
    ∀ m : IoMemory, (fillAll log m).printed = m.printed := by
  induction log with
  | nil => intro m; rfl
  | cons c log ih =>
      intro m
      refine (ih (kernelRead c.sqe c.bytes m)).trans ?_
      rw [kernelRead]
      split
      · rfl
      · rfl

/-- Blocks that start with other blocks are the same together only if each is. -/
theorem flatMap_eq_iff_of_starts {f g : Completion → List UInt8} (log : List Completion)
    (h : ∀ c ∈ log, f c <+: g c) :
    log.flatMap g = log.flatMap f ↔ ∀ c ∈ log, g c = f c := by
  constructor
  · induction log with
    | nil => intro _ c hc; exact nomatch hc
    | cons c log ih =>
        intro heq
        have hhead := h c List.mem_cons_self
        have htail : ∀ d ∈ log, f d <+: g d := fun d hd => h d (List.mem_cons_of_mem _ hd)
        rw [List.flatMap_cons, List.flatMap_cons] at heq
        -- each part is at least as long, so none is longer
        have hle : (log.flatMap f).length ≤ (log.flatMap g).length :=
          (List.Sublist.flatMap_right log fun d hd => (htail d hd).sublist).length_le
        have hlen := congrArg List.length heq
        rw [List.length_append, List.length_append] at hlen
        have hcons : g c = f c :=
          (hhead.eq_of_length (by have := hhead.length_le; omega)).symm
        rw [hcons, List.append_cancel_left_eq] at heq
        exact List.forall_mem_cons.mpr ⟨hcons, ih htail heq⟩
  · intro hall
    exact List.flatMap_congr hall

section Output

variable (heap : Heap IoObject) (ring : SqRing) (calls : List Call) (printed : List UInt8)
variable {k : Nat} {cq : RingBuffer Cqe} (events : List Event)

/-- What a run prints: the pages of what it has processed. -/
theorem session_printed (hcq : cq.SetUp k)
    (hkernel : KernelServes heap ring calls
      (served events (Session.start cq (submittedMemory heap ring calls printed)))) :
    (runSession events
        (Session.start cq (submittedMemory heap ring calls printed))).memory.printed
      = printed ++ ((served events (Session.start cq
          (submittedMemory heap ring calls printed))).take
            (runSession events (Session.start cq
              (submittedMemory heap ring calls printed))).processed.length).flatMap
          (page (submittedMemory heap ring calls printed).heap) := by
  have hlinear := linear_session heap ring calls printed events hcq hkernel
  have hserves := hkernel.serves
  rw [hlinear.memory, fillAll_printed]
  refine serveAll_printed _ (standing_init heap ring calls) ⟨?_, ?_⟩
  · exact hserves.once.sublist ((List.take_sublist _ _).map _)
  · intro c hc
    exact hserves.submitted c (List.mem_of_mem_take hc)

end Output

end CPetLinearization
