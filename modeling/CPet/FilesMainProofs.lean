import CPet.LinearizationProofs
import CPet.SetupProofs

/-! # `main` of the file reader

    The program opens a file, sets up the rings, submits one vectored read and
    calls `readFromCq`.  It goes on when the file cannot be opened, with
    descriptor -1; it stops with status 5 when the rings cannot be set up.

    From there on a run is a session of the reader and the kernel.  `main` comes
    to its end only when `readFromCq` returns, which it does at a failed
    completion; so the program ends exactly when the read has failed, and its
    status is then 0.  When the read succeeds the file is printed, once, and the
    program spins for ever.

    Progress lines on stdout after the setup, and the stack trace on stderr, are
    left out. -/

namespace CPetFilesMain

open CPetRun CPetRing CPetMemory CPetBlockPlan CPetSubmission CPetRequest CPetIovec
open CPetCompletion CPetVectoredRead CPetHeapBalance CPetLinearization CPetSetup

/-! ## Signals -/

/-- `SIGSEGV`. -/
def sigsegv : Nat := 11

/-- `signal_handler_log_stacktrace(sig)`: the exit status and the text on stderr. -/
def signalHandlerLogStacktrace (sig : Nat) (stderr : String) : Int × String :=
  (139, stderr ++ "Received signal " ++ toString sig ++ "\n"
    ++ "Error: signal " ++ toString sig ++ ":\n")

/-! ## The program -/

/-- What `main` meets: the descriptor and the file that `open` finds, the answers
    to the setup of the rings and what they hold, the heap and what is stale in
    it, and what `io_uring_enter` does. -/
structure World where
  opened : Option (Nat × FileInfo)
  answers : Answers
  sq : SqRing
  cq : RingBuffer Cqe
  heap : Heap IoObject
  stale : Nat → Nat → UInt8
  outcome : EnterOutcome

/-- What `open(filename, O_RDWR)` returns. -/
def World.fd (w : World) : Int :=
  match w.opened with
  | some (fd, _) => fd
  | none => -1

/-- What is behind that descriptor; `fstat` fails on -1. -/
def World.file (w : World) : FileInfo :=
  match w.opened with
  | some (_, file) => file
  | none => .statFails

/-- The one call of `submitToSq`. -/
def World.call (w : World) : Call := ⟨w.fd, w.file, w.stale, w.outcome⟩

/-- The process, the session it shares with the kernel, and the exit status once
    there is one. -/
structure MainState where
  process : Process
  session : Session
  status : Option Int

/-- All pointers of the submitter lead into mappings. -/
def allMapped (p : Process) : Bool :=
  p.submitter.pointers.all fun a => p.mappings.any fun m => a - m.base < m.length

/-- The process before the rings are set up: the file is open, if it could be
    opened, and its size has been printed. -/
def World.opening (w : World) : Process where
  submitter := ⟨0, ⟨0, 0, 0, 0, 0⟩, 0, ⟨0, 0, 0, 0⟩⟩
  fds := w.opened.toList.map fun f => (f.1 : Int)
  mappings := []
  stdout := (if w.fd < 0 then "Couldn't open the file: " ++ toString w.fd ++ "\n" else "")
    ++ "Bytes in the file: " ++ toString (getFileSize w.file).1 ++ "\n"
  stderr := (getFileSize w.file).2

/-- `main` up to the call of `readFromCq`. -/
def World.start (w : World) : MainState :=
  let prepared := prepareIoUring w.answers w.opening
  if prepared.1 ≠ 0 then
    ⟨prepared.2, Session.start w.cq ⟨w.heap, [], []⟩, some 5⟩
  else if allMapped prepared.2 = false then
    -- the rings are behind the pointers stored, wherever these lead
    let handled := signalHandlerLogStacktrace sigsegv
      (prepared.2.stderr ++ (getFileSize w.file).2)
    ⟨{ prepared.2 with stderr := handled.2 }, Session.start w.cq ⟨w.heap, [], []⟩,
      some handled.1⟩
  else
    ⟨{ prepared.2 with
        stderr := prepared.2.stderr ++ (run [w.call] (IoState.init w.heap w.sq)).stderr },
      Session.start w.cq (submittedMemory w.heap w.sq [w.call] []), none⟩

/-- A step of the kernel or of the program. -/
def mainStep (w : World) (s : MainState) : Event → MainState
  | .complete sqe bytes res => { s with session := complete sqe bytes res s.session }
  | .read =>
      if s.status ≠ none then s
      else if s.session.pc = .returned then
        -- `close(fd)`, and the end of `main`
        { s with
          process := { s.process with fds := s.process.fds.erase w.fd }
          status := some 0 }
      else { s with session := readStep s.session }

/-- A run of the program and the kernel, in any order of steps. -/
def mainRun (events : List Event) (w : World) : MainState :=
  events.foldl (mainStep w) w.start

/-! ## The rings -/

/-- The rings are set up, and the pointers to them are good. -/
structure World.Ready (w : World) : Prop where
  fd : 0 ≤ w.answers.fd
  mapped : AllMapped w.answers
  offsets : w.answers.params.OffsetsInside

/-- The check is that every pointer leads into a mapping. -/
theorem allMapped_eq_true {p : Process} :
    allMapped p = true ↔ ∀ a ∈ p.submitter.pointers, p.Mapped a := by
  simp [allMapped, Process.Mapped, Mapping.Contains]

/-- With the rings set up `main` gets to `readFromCq`. -/
theorem World.Ready.start {w : World} (h : w.Ready) :
    w.start.session = Session.start w.cq (submittedMemory w.heap w.sq [w.call] [])
      ∧ w.start.status = none := by
  have hfd : ¬ w.answers.fd < 0 := Int.not_lt.mpr h.fd
  rcases prepareIoUring_cases w.opening hfd with ⟨hnoticed, -⟩ | ⟨-, hr⟩
  · exact absurd hnoticed h.mapped.not_noticed
  · have hmapped := allMapped_eq_true.mpr (pointers_mapped h.mapped h.offsets hr)
    simp only [World.start, hr.ret, hmapped, ne_eq, not_true_eq_false, if_false,
      Bool.true_eq_false, and_self]

/-! ## Runs of the program are sessions -/

/-- The program runs, or has come to the end of `main` after `readFromCq`. -/
def Ordinary (s : MainState) : Prop :=
  s.status = none ∨ s.status = some 0 ∧ s.session.pc = .returned

/-- The kernel does not move the program. -/
theorem complete_pc (sqe : Sqe) (bytes : List UInt8) (res : Int32) (t : Session) :
    (complete sqe bytes res t).pc = t.pc := by
  rw [complete]
  split
  · rfl
  · rfl

/-- A reader that has returned stays so. -/
theorem readStep_of_returned {t : Session} (h : t.pc = .returned) : readStep t = t := by
  simp only [readStep, h]

/-- **STEP**: a step of the program is one of the session, and the last one none. -/
theorem mainStep_session (w : World) {s : MainState} (h : Ordinary s) (event : Event) :
    (mainStep w s event).session = sessionStep s.session event
      ∧ Ordinary (mainStep w s event) := by
  cases event with
  | complete sqe bytes res =>
      refine ⟨rfl, ?_⟩
      rcases h with hnone | ⟨hzero, hpc⟩
      · exact Or.inl hnone
      · exact Or.inr ⟨hzero, (complete_pc sqe bytes res s.session).trans hpc⟩
  | read =>
      show (mainStep w s .read).session = readStep s.session ∧ _
      rcases h with hnone | ⟨hzero, hpc⟩
      · by_cases hpc : s.session.pc = .returned
        · rw [mainStep, if_neg (not_not_intro hnone), if_pos hpc, readStep_of_returned hpc]
          exact ⟨rfl, Or.inr ⟨rfl, hpc⟩⟩
        · rw [mainStep, if_neg (not_not_intro hnone), if_neg hpc]
          exact ⟨rfl, Or.inl hnone⟩
      · have hended : s.status ≠ none := by rw [hzero]; exact Option.some_ne_none 0
        rw [mainStep, if_pos hended, readStep_of_returned hpc]
        exact ⟨rfl, Or.inr ⟨hzero, hpc⟩⟩

/-- **RUN**: so is a whole run. -/
theorem foldl_mainStep_session (w : World) (events : List Event) :
    ∀ {s : MainState}, Ordinary s →
      (events.foldl (mainStep w) s).session = runSession events s.session
        ∧ Ordinary (events.foldl (mainStep w) s) := by
  induction events with
  | nil => intro s h; exact ⟨rfl, h⟩
  | cons event events ih =>
      intro s h
      obtain ⟨hsession, hordinary⟩ := mainStep_session w h event
      have hrun := ih hordinary
      rw [hsession] at hrun
      exact hrun

/-- Once the rings are set up, a run of `main` is a session on the one file. -/
theorem World.Ready.run {w : World} (h : w.Ready) (events : List Event) :
    (mainRun events w).session
        = runSession events (Session.start w.cq (submittedMemory w.heap w.sq [w.call] []))
      ∧ Ordinary (mainRun events w) := by
  obtain ⟨hsession, hstatus⟩ := h.start
  have hrun := foldl_mainStep_session w events (Or.inl hstatus : Ordinary w.start)
  rw [hsession] at hrun
  exact hrun

/-! ## The end of the program -/

/-- Reads at the end of a run of events. -/
def thenReads (events : List Event) (n : Nat) : List Event := events ++ List.replicate n .read

/-- Later events go on where the earlier ones have ended. -/
theorem runSession_append (events events' : List Event) (t : Session) :
    runSession (events ++ events') t = runSession events' (runSession events t) :=
  List.foldl_append

/-- Running the program on is iterating its step. -/
theorem runSession_thenReads (events : List Event) (n : Nat) (t : Session) :
    runSession (thenReads events n) t = readStep^[n] (runSession events t) := by
  rw [thenReads, runSession_append]
  induction n with
  | zero => rfl
  | succ n ih =>
      rw [List.replicate_succ', runSession_append, ih, Function.iterate_succ_apply']
      rfl

/-- Reading completes nothing. -/
theorem served_thenReads (events : List Event) (n : Nat) :
    ∀ t : Session, served (thenReads events n) t = served events t := by
  induction events with
  | nil =>
      induction n with
      | zero => intro t; rfl
      | succ n ih => intro t; exact ih (readStep t)
  | cons event events ih =>
      intro t
      cases event with
      | complete sqe bytes res =>
          show served (.complete sqe bytes res :: thenReads events n) t = _
          rw [served, served, ih, ih]
      | read => exact ih (readStep t)

section Ends

variable {w : World} {k : Nat}

/-- The program ends one step after `readFromCq` has returned. -/
theorem World.Ready.status_of_returned (h : w.Ready) (events : List Event) (n : Nat)
    (hpc : (mainRun (thenReads events n) w).session.pc = .returned) :
    (mainRun (thenReads events (n + 1)) w).status = some 0 := by
  have hstep : mainRun (thenReads events (n + 1)) w
      = mainStep w (mainRun (thenReads events n) w) .read := by
    rw [mainRun, mainRun, thenReads, thenReads, List.replicate_succ', ← List.append_assoc,
      List.foldl_append]
    rfl
  rw [hstep]
  rcases (h.run (thenReads events n)).2 with hnone | ⟨hzero, -⟩
  · rw [mainStep, if_neg (not_not_intro hnone), if_pos hpc]
  · have hended : (mainRun (thenReads events n) w).status ≠ none := by
      rw [hzero]
      exact Option.some_ne_none 0
    rw [mainStep, if_pos hended, hzero]

/-- One entry is submitted, so at most one is completed. -/
theorem length_served_le_one {s : IoState} {c : Call} (hs : s.submitted = [])
    {log : List Completion} (honce : (log.map fun d => d.sqe.userData).Nodup)
    (hsubmitted : ∀ d ∈ log, d.sqe ∈ (run [c] s).submitted) : log.length ≤ 1 := by
  have hone : ∀ x ∈ log.map (fun d => d.sqe.userData), x = (callSqe s c).userData := by
    intro x hx
    obtain ⟨d, hd, rfl⟩ := List.mem_map.mp hx
    have hmem : d.sqe ∈ (submitToSq s c).submitted := hsubmitted d hd
    rw [submitToSq_submitted, hs, List.nil_append, List.mem_singleton] at hmem
    rw [hmem]
  rw [List.eq_replicate_iff.mpr ⟨List.length_map _, hone⟩] at honce
  exact List.nodup_replicate.mp honce

/-- A program that has ended has done so after the reader returned, at a failed entry
    that it has not processed. -/
theorem World.Ready.ended_at_failed (h : w.Ready) (hcq : w.cq.SetUp k) (events : List Event)
    (n : Nat) (hne : (mainRun (thenReads events n) w).status ≠ none) :
    (mainRun (thenReads events n) w).status = some 0
      ∧ ∃ taken, ∃ hlt : taken < (mainRun events w).session.posted.length,
        (mainRun events w).session.posted[taken].res < 0
        ∧ (mainRun (thenReads events n) w).session.processed.length = taken := by
  obtain ⟨hthen, hordinary⟩ := h.run (thenReads events n)
  rcases hordinary with hnone | ⟨hzero, hpc⟩
  · exact absurd hnone hne
  refine ⟨hzero, ?_⟩
  rw [hthen, runSession_thenReads] at hpc ⊢
  have hposted := iterate_invariant
    (I := fun t => t.posted = (runSession events
      (Session.start w.cq (submittedMemory w.heap w.sq [w.call] []))).posted)
    (fun t ht => (readStep_posted t).trans ht) n _ rfl
  obtain ⟨taken', hinv'⟩ := inv_iterate
    (inv_runSession events (inv_start hcq (submittedMemory w.heap w.sq [w.call] []))) n
  obtain ⟨hlt, hneg, hdone, -⟩ := hinv'.of_returned hpc
  simp only [hposted] at hlt hneg
  rw [(h.run events).1]
  exact ⟨taken', hlt, hneg, hdone.length hinv'.tracks.taken_le⟩

/-- A failed entry ends the program that is run on. -/
theorem World.Ready.ends_of_failed (h : w.Ready) (hcq : w.cq.SetUp k) (events : List Event)
    (hfailed : ∃ e ∈ (mainRun events w).session.posted, e.res < 0) :
    ∃ n, (mainRun (thenReads events n) w).status = some 0 := by
  obtain ⟨taken, hinv⟩ :=
    inv_runSession events (inv_start hcq (submittedMemory w.heap w.sq [w.call] []))
  rw [(h.run events).1] at hfailed
  obtain ⟨t, ⟨n, hn⟩, hpc, -⟩ := returns_of_failed hinv hfailed
  refine ⟨n + 1, h.status_of_returned events n ?_⟩
  rw [(h.run (thenReads events n)).1, runSession_thenReads, hn]
  exact hpc

end Ends

/-- A file of five bytes is open, and every call that sets up the rings succeeds. -/
def smallWorld : World where
  opened := some (3, .regular 5)
  answers := answersFor (some 0x7f0000000000)
  sq := freshRing
  cq := freshCq
  heap := Heap.empty
  stale := fun _ _ => 88
  outcome := .enters true

theorem smallWorld_ready : smallWorld.Ready where
  fd := by decide
  mapped := by simp [AllMapped, Answers.maps, smallWorld, answersFor]
  offsets := oneEntry_offsetsInside

/-- The read fails with `-EIO` while the reader waits. -/
def failedEvents : List Event := [.read, .complete ⟨3, ioringOpReadv, 0, 1, 2, 0⟩ [] (-5), .read]

theorem kernelServes_failed :
    KernelServes smallWorld.heap smallWorld.sq [smallWorld.call]
      (served failedEvents (Session.start smallWorld.cq
        (submittedMemory smallWorld.heap smallWorld.sq [smallWorld.call] []))) where
  once := by decide
  submitted := by decide

section Prints

variable {w : World} {k : Nat}

/-- The file is open and regular, and its bytes fit one read. -/
structure World.Holds (w : World) (content : List UInt8) : Prop where
  opened : ∃ fd : Nat, w.opened = some (fd, .regular content.length)
  small : content.length < 2 ^ 31

/-- The completion of a full read. -/
def World.fullRead (w : World) (content : List UInt8) : Completion :=
  ⟨callSqe (IoState.init w.heap w.sq) w.call, content, Int32.ofNat content.length⟩

/-- The size asked for is that of the content. -/
theorem World.Holds.size {content : List UInt8} (h : w.Holds content) :
    (getFileSize w.call.file).1 = content.length := by
  obtain ⟨fd, hopened⟩ := h.opened
  simp only [World.call, World.file, hopened, getFileSize]

/-- The page of the full read is the file. -/
theorem World.Holds.page_eq {content : List UInt8} (h : w.Holds content) :
    page (submittedMemory w.heap w.sq [w.call] []).heap (w.fullRead content) = content := by
  have hsize := h.size
  have hsmall := h.small
  have hcapacity : capacity (callRequest (IoState.init w.heap w.sq) w.call).entries
      = content.length := by
    rw [callRequest, preparedRequest, capacity_requestEntries (by omega) (by omega), hsize,
      Int.toNat_natCast]
  have hlen : (w.fullRead content).sqe.len.toNat
      = (callRequest (IoState.init w.heap w.sq) w.call).entries.length :=
    callSqe_len (by omega) (by omega)
  obtain ⟨hstarts, hpage⟩ := page_prefix
    (requestAt_submitToSq (IoState.init w.heap w.sq) w.call)
    (⟨callSqe_userData _ _, callSqe_addr _ _⟩ : (w.fullRead content).For _)
    (by rw [hlen, List.take_length, hcapacity]; exact Nat.le_refl _)
  exact (hstarts.eq_of_length (by rw [hpage, hcapacity]; rfl)).symm

/-- A kernel that completes the one request at most, with a full read. -/
def World.ReadsFully (w : World) (content : List UInt8) (events : List Event) : Prop :=
  served events (Session.start w.cq (submittedMemory w.heap w.sq [w.call] []))
    <+: [w.fullRead content]

/-- A full read of the one file is what the kernel owes to a session. -/
theorem World.ReadsFully.kernelServes {content : List UInt8} {events : List Event}
    (h : w.ReadsFully content events) :
    KernelServes w.heap w.sq [w.call]
      (served events (Session.start w.cq (submittedMemory w.heap w.sq [w.call] []))) where
  once := (List.nodup_singleton _).sublist (h.sublist.map _)
  submitted := by
    intro c hc
    rw [List.mem_singleton.mp (h.subset hc)]
    show _ ∈ (submitToSq _ _).submitted
    rw [submitToSq_submitted]
    exact List.mem_append_right _ List.mem_cons_self

/-- What has been printed is the file once its read has been processed, and nothing
    before. -/
theorem World.Holds.printed {content : List UInt8} (h : w.Holds content)
    (hcq : w.cq.SetUp k) {events : List Event} (hreads : w.ReadsFully content events) :
    (runSession events
        (Session.start w.cq (submittedMemory w.heap w.sq [w.call] []))).memory.printed
      = if (runSession events
          (Session.start w.cq (submittedMemory w.heap w.sq [w.call] []))).processed = []
        then [] else content := by
  have hkernel := hreads.kernelServes
  have hprocessed := processed_session w.heap w.sq [w.call] [] events hcq hkernel
  rw [session_printed w.heap w.sq [w.call] [] events hcq hkernel]
  rw [World.ReadsFully] at hreads
  generalize served events (Session.start w.cq (submittedMemory w.heap w.sq [w.call] [])) = log
    at *
  generalize (runSession events
    (Session.start w.cq (submittedMemory w.heap w.sq [w.call] []))).processed = processed at *
  by_cases hnil : processed = []
  · rw [if_pos hnil, hnil]
    rfl
  · -- something has been processed: the one completion
    rw [if_neg hnil]
    have hpos := List.length_pos_iff.mpr hnil
    have hle := hprocessed.length_le
    rw [List.length_map] at hle
    have hone : log = [w.fullRead content] :=
      hreads.eq_of_length (Nat.le_antisymm hreads.length_le (by
        rw [List.length_singleton]
        omega))
    rw [List.take_of_length_le (by rw [hone, List.length_singleton]; exact hpos), hone,
      List.flatMap_singleton, h.page_eq]
    rfl

/-- Its completions have not failed. -/
theorem World.ReadsFully.succeeded {content : List UInt8} (hholds : w.Holds content)
    (hcq : w.cq.SetUp k) {events : List Event} (hreads : w.ReadsFully content events) :
    ∀ e ∈ (runSession events
      (Session.start w.cq (submittedMemory w.heap w.sq [w.call] []))).posted, ¬ e.res < 0 := by
  have hsmall := hholds.small
  intro e he
  rw [(linear_session w.heap w.sq [w.call] [] events hcq hreads.kernelServes).posted] at he
  obtain ⟨c, hc, rfl⟩ := List.mem_map.mp he
  rw [List.mem_singleton.mp (hreads.subset hc)]
  show ¬ Int32.ofNat content.length < 0
  rw [Int32.lt_iff_toInt_lt, Int32.toInt_ofNat_of_lt (by omega)]
  exact Int.not_lt.mpr (Int.natCast_nonneg _)

end Prints

/-- The read of the five bytes completes while the reader waits. -/
def fullEvents : List Event :=
  [.read, .complete ⟨3, ioringOpReadv, 0, 1, 2, 0⟩ smallContent 5, .read]

end CPetFilesMain
