import CPet.CompletionProofs
import CPet.OwnershipProofs
import Mathlib.Data.List.Induction
import Mathlib.Data.List.Pairwise

/-! # What the asynchronous reader allocates and frees

    `submitToSq` allocates a table, its buffers and a header for each request,
    and hands all of them over through `user_data`.  `readFromCq` frees the
    buffers and the header of each request it processes; `free(iovec_array)`
    drops the last pointer to the table, which is never freed.

    The ledger of a session splits the requests submitted into those processed
    and those pending.  The pending ones still own their blocks; of each
    processed one exactly the table is left.  So the heap balances as long as
    nothing has been processed, and never again afterwards. -/

namespace CPetHeapBalance

open CPetRing CPetMemory CPetOwnership CPetSubmission CPetRequest CPetIovec
open CPetCompletion

/-! ## Submitting -/

/-- The requests of a run of calls. -/
def runRequests : List Call → IoState → List Request
  | [], _ => []
  | c :: cs, s => callRequest s c :: runRequests cs (submitToSq s c)

/-- Some requests stand in the heap, and own their blocks in it. -/
structure Standing (heap : Heap IoObject) (base : Nat → Prop) (rs : List Request) :
    Prop where
  owns : Owns heap base (rs.flatMap Request.blocks)
  standing : ∀ r ∈ rs, RequestAt heap r

/-- **STEP, SUBMIT**: a call adds its request to the standing ones. -/
theorem standing_submitToSq {s : IoState} {base : Nat → Prop} {rs : List Request}
    (h : Standing s.heap base rs) (c : Call) :
    Standing (submitToSq s c).heap base (rs ++ [callRequest s c]) where
  owns := by
    rw [List.flatMap_append, List.flatMap_singleton, submitToSq_heap]
    refine h.owns.grow (fun a => mem_preparedRequest_blocks _ _ _ _)
      (nodup_preparedRequest_blocks _ _ _ _) ?_ ?_
    · exact (requestAt_prepareRequest _ _ _ _).isSome
    · intro a ha
      exact prepareRequest_live_of_lt _ _ _ _ ha
  standing := by
    intro r hr
    rcases List.mem_append.mp hr with hold | hnew
    · -- the blocks of an older request are older than the new ones
      refine requestAt_congr (h.standing r hold) ?_
      intro a ha
      have hlt := h.owns.lt_next (List.mem_flatMap.mpr ⟨r, hold, ha⟩)
      rw [submitToSq_heap]
      exact SameShape.of_eq (prepareRequest_live_of_lt _ _ _ _ hlt)
    · rw [List.mem_singleton.mp hnew]
      exact requestAt_submitToSq s c

/-- **RUN, SUBMIT**: after a run of calls all its requests stand. -/
theorem standing_run (calls : List Call) :
    ∀ {s : IoState} {base : Nat → Prop} {rs : List Request}, Standing s.heap base rs →
      Standing (run calls s).heap base (rs ++ runRequests calls s) := by
  induction calls with
  | nil =>
      intro s base rs h
      rw [runRequests, List.append_nil]
      exact h
  | cons c cs ih =>
      intro s base rs h
      have hrun := ih (standing_submitToSq h c)
      rw [List.append_assoc] at hrun
      exact hrun

/-- The requests of a run from the start are apart from each other and from
    what lived before. -/
theorem standing_init (heap : Heap IoObject) (ring : SqRing) (calls : List Call) :
    Standing (run calls (IoState.init heap ring)).heap (fun a => (heap.live a).isSome)
      (runRequests calls (IoState.init heap ring)) := by
  have hstart : Standing (IoState.init heap ring).heap (fun a => (heap.live a).isSome) [] :=
    ⟨owns_start heap, by simp⟩
  exact standing_run calls hstart

/-! ## Processing -/

/-- The order of the requests does not matter. -/
theorem Standing.perm {heap : Heap IoObject} {base : Nat → Prop} {rs rs' : List Request}
    (h : Standing heap base rs) (hp : rs.Perm rs') : Standing heap base rs' where
  owns := h.owns.perm (hp.flatMap_right Request.blocks)
  standing := by
    intro r hr
    exact h.standing r (hp.mem_iff.mpr hr)

/-- What `readFromCq` frees of a request, in order. -/
def released (r : Request) : List Nat := bases r.entries ++ [r.userData]

/-- A request owns what is released for it, and one object more. -/
theorem blocks_perm (r : Request) : r.blocks.Perm (released r ++ [r.addr]) := by
  rw [Request.blocks, released]
  refine (List.Perm.swap _ _ _).trans ?_
  refine (List.perm_append_singleton r.addr _).symm.trans ?_
  exact (List.perm_append_singleton r.userData _).symm.append_right [r.addr]

/-- **STEP, PROCESS**: the request processed loses its header and buffers, and
    its table leaks. -/
theorem standing_processEntry {m : IoMemory} {base : Nat → Prop} {r : Request}
    {rs : List Request} (h : Standing m.heap base (r :: rs)) :
    Standing (processEntry r.userData m).heap (fun a => base a ∨ a = r.addr) rs
      ∧ (processEntry r.userData m).freed = m.freed ++ released r := by
  have hat := h.standing r List.mem_cons_self
  have hheap : (processEntry r.userData m).heap = m.heap.freeAll (released r) := by
    rw [processEntry_eq hat, released, Heap.freeAll, Heap.freeAll, List.foldl_append]
    rfl
  have howns : Owns m.heap base (released r ++ (r.addr :: rs.flatMap Request.blocks)) := by
    refine h.owns.perm ?_
    rw [List.flatMap_cons, List.append_cons]
    exact (blocks_perm r).append_right _
  refine ⟨⟨?_, ?_⟩, ?_⟩
  · rw [hheap]
    exact howns.freeAll.leak
  · -- the blocks of the others are not among those freed
    intro r' hr'
    refine requestAt_congr (h.standing r' (List.mem_cons_of_mem _ hr')) ?_
    intro a ha
    refine SameShape.of_eq ?_
    rw [hheap, freeAll_live, if_neg]
    intro hmem
    have hother : a ∈ r.addr :: rs.flatMap Request.blocks :=
      List.mem_cons_of_mem _ (List.mem_flatMap.mpr ⟨r', hr', ha⟩)
    exact (List.nodup_append.mp howns.distinct).2.2 a hmem a hother rfl
  · rw [processEntry_eq hat, List.append_assoc]
    rfl

/-! ## The ledger of a session -/

/-- Each request submitted is processed or pending.  The pending ones own their
    blocks, the processed ones have left their tables behind, and what has been
    freed is what processing frees. -/
structure Ledger (base : Nat → Prop) (rs : List Request) (t : Session)
    (done pending : List Request) : Prop where
  split : (done ++ pending).Perm rs
  processed : t.processed = done.map Request.userData
  standing : Standing t.memory.heap (fun a => base a ∨ a ∈ done.map Request.addr) pending
  freed : t.memory.freed = done.flatMap released

section Session

variable {base : Nat → Prop} {rs done pending : List Request} {t : Session}

/-- At the start nothing has been processed. -/
theorem ledger_start {heap : Heap IoObject} (h : Standing heap base rs)
    (cq : RingBuffer Cqe) (printed : List UInt8) :
    Ledger base rs (Session.start cq ⟨heap, printed, []⟩) [] rs where
  split := List.Perm.refl rs
  processed := rfl
  standing := by
    have hbase : (fun a => base a ∨ a ∈ ([] : List Request).map Request.addr) = base := by
      simp
    rw [hbase]
    exact h
  freed := rfl

/-- Filling buffers disturbs no request. -/
theorem Standing.congr {h h' : Heap IoObject} (hst : Standing h base rs)
    (hs : ∀ a, SameShape h h' a) : Standing h' base rs where
  owns := hst.owns.congr fun a => (hs a).isSome
  standing := by
    intro r hr
    exact requestAt_congr (hst.standing r hr) fun a _ => hs a

/-- **STEP, KERNEL**. -/
theorem ledger_complete (h : Ledger base rs t done pending) (sqe : Sqe)
    (bytes : List UInt8) (res : Int32) :
    Ledger base rs (complete sqe bytes res t) done pending := by
  rw [complete]
  by_cases hroom : t.cq.HasRoom
  · rw [if_pos hroom]
    refine ⟨h.split, h.processed, ?_, ?_⟩
    · exact h.standing.congr (sameShape_kernelRead sqe bytes t.memory)
    · refine Eq.trans ?_ h.freed
      show (kernelRead sqe bytes t.memory).freed = t.memory.freed
      rw [kernelRead]
      split
      · rfl
      · rfl
  · rw [if_neg hroom]
    exact h

/-- The completions posted are for requests submitted, one for each at most. -/
structure OncePosted (rs : List Request) (posted : List Cqe) : Prop where
  once : (posted.map Cqe.userData).Nodup
  submitted : ∀ e ∈ posted, ∃ r ∈ rs, r.userData = e.userData

/-- The entry about to be processed is for a pending request. -/
theorem Ledger.mem_pending (h : Ledger base rs t done pending)
    (hposted : OncePosted rs t.posted) {n : Nat} (hlt : n < t.posted.length)
    (hdone : Done t n) : ∃ r ∈ pending, r.userData = t.posted[n].userData := by
  obtain ⟨r, hr, huser⟩ := hposted.submitted _ (List.getElem_mem hlt)
  rcases List.mem_append.mp (h.split.mem_iff.mpr hr) with hprocessed | hpending
  · -- then the same request would have been posted before
    have hmem : t.posted[n].userData ∈ (t.posted.take n).map Cqe.userData := by
      rw [← hdone.processed, h.processed, ← huser]
      exact List.mem_map_of_mem hprocessed
    have hnodup := hposted.once
    rw [← List.take_append_drop n t.posted, List.map_append,
      List.drop_eq_getElem_cons hlt, List.map_cons] at hnodup
    exact absurd rfl
      ((List.nodup_append.mp hnodup).2.2 _ hmem _ List.mem_cons_self)
  · exact ⟨r, hpending, huser⟩

/-- **STEP, READER**. -/
theorem ledger_readStep {k taken : Nat} (h : Ledger base rs t done pending)
    (hinv : Inv k t taken) (hposted : OncePosted rs t.posted) :
    ∃ done' pending', Ledger base rs (readStep t) done' pending' := by
  generalize readStep t = t', readMove t = hmove
  cases hmove with
  | process slot hpc =>
      have hat := hinv.atPc
      rw [hpc] at hat
      obtain ⟨hlt, hdone, rfl, -⟩ := hat
      -- the request of this entry moves from the pending to the done ones
      obtain ⟨r, hr, huser⟩ := h.mem_pending hposted hlt hdone
      obtain ⟨before, after, rfl⟩ := List.append_of_mem hr
      have hfront : t.cq.front.userData = r.userData := by
        rw [hinv.tracks.front hlt, huser]
      have hstanding : Standing t.memory.heap
          (fun a => base a ∨ a ∈ done.map Request.addr) (r :: (before ++ after)) :=
        h.standing.perm List.perm_middle
      obtain ⟨hprocess, hfreed⟩ := standing_processEntry hstanding
      refine ⟨done ++ [r], before ++ after, ?_, ?_, ?_, ?_⟩
      · refine List.Perm.trans ?_ h.split
        rw [List.append_assoc, List.singleton_append]
        exact List.perm_middle.symm.append_left done
      · show t.processed ++ [t.cq.front.userData] = _
        rw [hfront, h.processed, List.map_append]
        rfl
      · show Standing (processEntry t.cq.front.userData t.memory).heap _ _
        have hbase : (fun a => base a ∨ a ∈ (done ++ [r]).map Request.addr)
            = fun a => (base a ∨ a ∈ done.map Request.addr) ∨ a = r.addr := by
          funext a
          rw [List.map_append, List.mem_append, List.map_singleton, List.mem_singleton,
            or_assoc]
        rw [hfront, hbase]
        exact hprocess
      · show (processEntry t.cq.front.userData t.memory).freed = _
        rw [hfront, hfreed, h.freed, List.flatMap_append, List.flatMap_singleton]
  -- no other step touches the heap
  | spin hpc hempty => exact ⟨done, pending, h⟩
  | leave hpc hmore => exact ⟨done, pending, h.split, h.processed, h.standing, h.freed⟩
  | fetch hpc => exact ⟨done, pending, h.split, h.processed, h.standing, h.freed⟩
  | fail slot text hpc hres =>
      exact ⟨done, pending, h.split, h.processed, h.standing, h.freed⟩
  | pass slot hpc hres =>
      exact ⟨done, pending, h.split, h.processed, h.standing, h.freed⟩
  | advance hpc => exact ⟨done, pending, h.split, h.processed, h.standing, h.freed⟩
  | returned hpc => exact ⟨done, pending, h⟩

/-- What was posted stays posted, -/
theorem sessionStep_posted (t : Session) (event : Event) :
    t.posted <+: (sessionStep t event).posted := by
  cases event with
  | complete sqe bytes res =>
      show t.posted <+: (complete sqe bytes res t).posted
      rw [complete]
      split
      · exact List.prefix_append _ _
      · exact List.prefix_refl _
  | read => exact readStep_posted t ▸ List.prefix_refl _

/-- so what is posted once in the end was so before. -/
theorem OncePosted.of_prefix {posted posted' : List Cqe} (h : OncePosted rs posted')
    (hp : posted <+: posted') : OncePosted rs posted where
  once := h.once.sublist (hp.sublist.map Cqe.userData)
  submitted := by
    intro e he
    exact h.submitted e (hp.subset he)

/-- **RUN**: the ledger holds after every run of both sides that completes each
    request once at most. -/
theorem ledger_runSession {k : Nat} (hstart : Ledger base rs t done pending)
    (hinv : ∃ taken, Inv k t taken) (events : List Event)
    (hposted : OncePosted rs (runSession events t).posted) :
    ∃ done' pending', Ledger base rs (runSession events t) done' pending' := by
  induction events using List.reverseRecOn with
  | nil => exact ⟨done, pending, hstart⟩
  | append_singleton events event ih =>
      have hrun : runSession (events ++ [event]) t
          = sessionStep (runSession events t) event := by
        rw [runSession, List.foldl_append]
        rfl
      rw [hrun] at hposted ⊢
      -- the hypothesis is about the end of the run; earlier less is posted
      have hbefore := hposted.of_prefix (sessionStep_posted (runSession events t) event)
      obtain ⟨done', pending', h⟩ := ih hbefore
      obtain ⟨taken, htaken⟩ := hinv
      obtain ⟨taken', hinv'⟩ := inv_runSession events htaken
      cases event with
      | complete sqe bytes res => exact ⟨done', pending', ledger_complete h sqe bytes res⟩
      | read => exact ledger_readStep h hinv' hbefore

end Session

/-! ## The balance -/

/-- The blocks still allocated are those that lived before and those of the
    requests not processed; and all blocks of the processed ones have been
    freed, once each, and nothing else. -/
structure Balanced (base : Nat → Prop) (rs : List Request) (t : Session) : Prop where
  live : ∀ a, (t.memory.heap.live a).isSome
    ↔ base a ∨ ∃ r ∈ rs, r.userData ∉ t.processed ∧ a ∈ r.blocks
  freed : t.memory.freed.Perm
    ((rs.filter fun r => r.userData ∈ t.processed).flatMap Request.blocks)

section Balance

variable {base : Nat → Prop} {rs done pending : List Request} {t : Session}

/-- Requests that share a block are the same. -/
theorem eq_of_mem_blocks (hdistinct : (rs.flatMap Request.blocks).Nodup) {r r' : Request}
    (hr : r ∈ rs) (hr' : r' ∈ rs) {a : Nat} (ha : a ∈ r.blocks) (ha' : a ∈ r'.blocks) :
    r = r' := by
  by_contra hne
  have hsymm : Std.Symm (Function.onFun List.Disjoint Request.blocks) :=
    ⟨fun _ _ h _ ha hb => h hb ha⟩
  have hpairs := (List.nodup_flatMap.mp hdistinct).2
  exact hpairs.forall hr hr' hne ha ha'

/-- **WHAT IS LEFT**: beside what lived before, the blocks of the pending requests
    and the tables of the processed ones. -/
theorem Ledger.live_iff (h : Ledger base rs t done pending) (a : Nat) :
    (t.memory.heap.live a).isSome ↔ base a ∨ (∃ r ∈ done, a = r.addr)
      ∨ ∃ r ∈ pending, a ∈ r.blocks := by
  rw [h.standing.owns.live, List.mem_map, List.mem_flatMap, or_assoc]
  simp only [eq_comm]

/-- Nothing processed yet: nothing freed, and everything still owned. -/
theorem Ledger.balanced_of_nil (h : Ledger base rs t done pending)
    (hnil : t.processed = []) : Balanced base rs t := by
  have hdone : done = [] := List.map_eq_nil_iff.mp (h.processed ▸ hnil)
  subst hdone
  have hpending : ∀ r, r ∈ rs ↔ r ∈ pending := fun r => h.split.mem_iff.symm
  refine ⟨?_, ?_⟩
  · intro a
    rw [h.live_iff]
    simp [hnil, hpending]
  · rw [h.freed, hnil]
    simp

/-- The table of a processed request belongs to no unprocessed one. -/
theorem Ledger.not_balanced_of_mem (h : Ledger base rs t done pending)
    (hapart : ∀ a ∈ rs.flatMap Request.blocks, ¬ base a)
    (hdistinct : (rs.flatMap Request.blocks).Nodup) {r : Request} (hr : r ∈ done) :
    ¬ Balanced base rs t := by
  intro hbalanced
  have hrs : r ∈ rs := h.split.mem_iff.mp (List.mem_append_left _ hr)
  have haddr : r.addr ∈ r.blocks := List.mem_cons_of_mem _ List.mem_cons_self
  have hlive : (t.memory.heap.live r.addr).isSome :=
    (h.live_iff r.addr).mpr (Or.inr (Or.inl ⟨r, hr, rfl⟩))
  rcases (hbalanced.live r.addr).mp hlive with hbase | ⟨r', hr', hunprocessed, haddr'⟩
  · exact hapart r.addr (List.mem_flatMap.mpr ⟨r, hrs, haddr⟩) hbase
  · have heq := eq_of_mem_blocks hdistinct hrs hr' haddr haddr'
    refine hunprocessed (heq ▸ ?_)
    rw [h.processed]
    exact List.mem_map_of_mem hr

end Balance

/-- **THE HEAP BALANCES** after a run of calls and a session in which the kernel
    completes each of their requests once at most, if and only if no completion
    has been processed yet: the first one processed leaks its table. -/
theorem balanced_iff (heap : Heap IoObject) (ring : SqRing) (calls : List Call) {k : Nat}
    {cq : RingBuffer Cqe} (hcq : cq.SetUp k) (printed : List UInt8) (events : List Event)
    (hposted : OncePosted (runRequests calls (IoState.init heap ring))
      (runSession events (Session.start cq
        ⟨(run calls (IoState.init heap ring)).heap, printed, []⟩)).posted) :
    Balanced (fun a => (heap.live a).isSome) (runRequests calls (IoState.init heap ring))
        (runSession events (Session.start cq
          ⟨(run calls (IoState.init heap ring)).heap, printed, []⟩))
      ↔ (runSession events (Session.start cq
          ⟨(run calls (IoState.init heap ring)).heap, printed, []⟩)).processed = [] := by
  have hstanding := standing_init heap ring calls
  obtain ⟨done, pending, hledger⟩ := ledger_runSession (ledger_start hstanding cq printed)
    ⟨0, inv_start hcq _⟩ events hposted
  constructor
  · intro hbalanced
    cases done with
    | nil => exact hledger.processed
    | cons r done =>
        exact absurd hbalanced (hledger.not_balanced_of_mem hstanding.owns.apart
          hstanding.owns.distinct List.mem_cons_self)
  · exact hledger.balanced_of_nil

/-- One file of 5000 bytes is submitted. -/
def oneFile : IoState := run [submitFile 3 (.enters true)] (IoState.init Heap.empty freshRing)

/-- Its read completes, and the reader processes the completion. -/
def oneFileEvents : List Event :=
  [.complete ⟨3, ioringOpReadv, 0, 2, 3, 0⟩ [104, 105] 5000, .read, .read, .read, .read]

theorem oncePosted_oneFile :
    OncePosted (runRequests [submitFile 3 (.enters true)] (IoState.init Heap.empty freshRing))
      (runSession oneFileEvents (Session.start freshCq ⟨oneFile.heap, [], []⟩)).posted where
  once := by decide
  submitted := by decide

theorem balanced_iff_oneFile :
    Balanced (fun a => ((Heap.empty : Heap IoObject).live a).isSome)
        (runRequests [submitFile 3 (.enters true)] (IoState.init Heap.empty freshRing))
        (runSession oneFileEvents (Session.start freshCq ⟨oneFile.heap, [], []⟩))
      ↔ (runSession oneFileEvents
          (Session.start freshCq ⟨oneFile.heap, [], []⟩)).processed = [] :=
  balanced_iff Heap.empty freshRing [submitFile 3 (.enters true)] freshCq_setUp []
    oneFileEvents oncePosted_oneFile

/-- After the one completion is processed, the table at address 0 is live and
    belongs to nobody. -/
theorem balanced_fails_oneFile :
    ¬ ∀ (calls : List Call) (k : Nat) (cq : RingBuffer Cqe), cq.SetUp k →
        ∀ events : List Event,
          OncePosted (runRequests calls (IoState.init Heap.empty freshRing))
            (runSession events (Session.start cq
              ⟨(run calls (IoState.init Heap.empty freshRing)).heap, [], []⟩)).posted →
          Balanced (fun a => ((Heap.empty : Heap IoObject).live a).isSome)
            (runRequests calls (IoState.init Heap.empty freshRing))
            (runSession events (Session.start cq
              ⟨(run calls (IoState.init Heap.empty freshRing)).heap, [], []⟩)) := by
  intro h
  have hbalanced := h [submitFile 3 (.enters true)] 1 freshCq freshCq_setUp oneFileEvents
    oncePosted_oneFile
  have hlive : ((runSession oneFileEvents
      (Session.start freshCq ⟨oneFile.heap, [], []⟩)).memory.heap.live 0).isSome := by decide
  rcases (hbalanced.live 0).mp hlive with hbase | hpending
  · exact absurd hbase (by decide)
  · exact absurd hpending (by decide)

end CPetHeapBalance
