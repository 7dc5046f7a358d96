import CPet.SubmissionProofs

/-! # `prepare_io_uring`

    The function acquires four things in sequence: the ring's descriptor and
    the mappings of its three parts.  A failed `mmap` answers `MAP_FAILED`,
    which is -1; the source tests for `NULL`.  Nothing acquired is ever given
    back.

    So a failed mapping goes unnoticed and its wild pointers are stored, and
    where the test does fire the descriptor leaks.  All or nothing is what
    comes out exactly when the setup itself fails or nothing after it does.

    What the kernel answers is a parameter: any descriptor or error, any ring
    offsets and entry counts, any address. -/

namespace CPetSetup

open CPetSubmission

/-! ## What the kernel answers -/

/-- `struct io_sqring_offsets`. -/
structure SqringOffsets where
  head : UInt32
  tail : UInt32
  ringMask : UInt32
  flags : UInt32
  array : UInt32

/-- `struct io_cqring_offsets`. -/
structure CqringOffsets where
  head : UInt32
  tail : UInt32
  ringMask : UInt32
  cqes : UInt32

/-- The fields of `struct io_uring_params` that are read. -/
structure IoUringParams where
  cqEntries : UInt32
  sqOff : SqringOffsets
  cqOff : CqringOffsets

/-- The answers to the four calls; a failed `mmap` has no address. -/
structure Answers where
  fd : Int
  params : IoUringParams
  sqring : Option UInt64
  sqentries : Option UInt64
  cqring : Option UInt64

/-- The bytes of the submission ring that are mapped. -/
def sqringSize (params : IoUringParams) : UInt64 :=
  params.sqOff.array.toUInt64 + entries.toUInt64 * 4

/-- The bytes of the submission queue entries. -/
def sqentriesSize : UInt64 := entries.toUInt64 * 64

/-- The bytes of the completion ring that are mapped. -/
def cqringSize (params : IoUringParams) : UInt64 :=
  params.cqOff.cqes.toUInt64 + params.cqEntries.toUInt64 * 16

/-- The offsets reported lie inside the sizes computed from them. -/
def IoUringParams.OffsetsInside (params : IoUringParams) : Prop :=
  (∀ off ∈ [params.sqOff.head, params.sqOff.tail, params.sqOff.array, params.sqOff.flags,
      params.sqOff.ringMask], off.toUInt64 < sqringSize params)
    ∧ ∀ off ∈ [params.cqOff.head, params.cqOff.tail, params.cqOff.cqes,
      params.cqOff.ringMask], off.toUInt64 < cqringSize params

/-! ## The process -/

/-- A mapping of a part of a ring: where it stands, its length, and the
    descriptor and file offset it was made from. -/
structure Mapping where
  base : UInt64
  length : UInt64
  fd : Int
  offset : UInt64

/-- The address is inside the mapping. -/
def Mapping.Contains (m : Mapping) (p : UInt64) : Prop := p - m.base < m.length

/-- An offset below the length leads into the mapping. -/
theorem Mapping.contains_add {m : Mapping} {off : UInt64} (h : off < m.length) :
    m.Contains (m.base + off) := by
  rw [Contains, UInt64.add_comm, UInt64.add_sub_cancel]
  exact h

/-- `struct app_io_sq_ring`. -/
structure AppIoSqRing where
  head : UInt64
  tail : UInt64
  ringMask : UInt64
  flags : UInt64
  array : UInt64

/-- `struct app_io_cq_ring`. -/
structure AppIoCqRing where
  head : UInt64
  tail : UInt64
  ringMask : UInt64
  cqes : UInt64

/-- `struct submitter`. -/
structure Submitter where
  ringFd : Int
  sqRing : AppIoSqRing
  sqes : UInt64
  cqRing : AppIoCqRing

/-- The pointers stored in a submitter. -/
def Submitter.pointers (s : Submitter) : List UInt64 :=
  [s.sqes, s.sqRing.head, s.sqRing.tail, s.sqRing.array, s.sqRing.flags,
    s.sqRing.ringMask, s.cqRing.head, s.cqRing.tail, s.cqRing.cqes, s.cqRing.ringMask]

/-- The caller's submitter, what the process holds, and what it has printed. -/
structure Process where
  submitter : Submitter
  fds : List Int
  mappings : List Mapping
  stdout : String
  stderr : String

/-- The address lies in a mapping the process holds. -/
def Process.Mapped (w : Process) (p : UInt64) : Prop := ∃ m ∈ w.mappings, m.Contains p

/-! ## The function -/

/-- `MAP_FAILED`. -/
def mapFailed : UInt64 := -1

/-- The pointer that an answer to `mmap` arrives as. -/
def pointer (answer : Option UInt64) : UInt64 := answer.getD mapFailed

/-- `mmap(NULL, length, .., fd, offset)`. -/
def mmap (answer : Option UInt64) (length : UInt64) (fd : Int) (offset : UInt64)
    (w : Process) : UInt64 × Process :=
  match answer with
  | none => (mapFailed, w)
  | some base => (base, { w with mappings := ⟨base, length, fd, offset⟩ :: w.mappings })

/-- `print_err(t, str)`. -/
def printErr (t : Bool) (str : String) (w : Process) : Bool × Process :=
  if t then (t, { w with stderr := w.stderr ++ str, stdout := w.stdout ++ "\n" })
  else (t, w)

/-- `IORING_OFF_SQ_RING`. -/
def ioringOffSqRing : UInt64 := 0

/-- `IORING_OFF_CQ_RING`. -/
def ioringOffCqRing : UInt64 := 0x8000000

/-- `IORING_OFF_SQES`. -/
def ioringOffSqes : UInt64 := 0x10000000

/-- The submitter filled in from the three addresses. -/
def fillSubmitter (fd : Int) (params : IoUringParams) (sqring sqentries cqring : UInt64) :
    Submitter where
  ringFd := fd
  sqes := sqentries
  sqRing := {
    head := sqring + params.sqOff.head.toUInt64
    tail := sqring + params.sqOff.tail.toUInt64
    array := sqring + params.sqOff.array.toUInt64
    flags := sqring + params.sqOff.flags.toUInt64
    ringMask := sqring + params.sqOff.ringMask.toUInt64 }
  cqRing := {
    head := cqring + params.cqOff.head.toUInt64
    tail := cqring + params.cqOff.tail.toUInt64
    cqes := cqring + params.cqOff.cqes.toUInt64
    ringMask := cqring + params.cqOff.ringMask.toUInt64 }

/-- `prepare_io_uring(result)`. -/
def prepareIoUring (k : Answers) (w : Process) : Int × Process :=
  if k.fd < 0 then
    (1, { w with stderr := w.stderr ++ "Couldn't set up io_uring: " ++ toString k.fd })
  else
    let w := { w with fds := k.fd :: w.fds }
    let (sqring, w) := mmap k.sqring (sqringSize k.params) k.fd ioringOffSqRing w
    -- a failed `mmap` does not return `NULL`
    let (err, w) := printErr (sqring == 0) "Couldn't map submission queue" w
    if err then (2, w)
    else
      let (sqentries, w) := mmap k.sqentries sqentriesSize k.fd ioringOffSqes w
      let (err, w) := printErr (sqentries == 0) "Couldn't map submission queue entries" w
      if err then (3, w)
      else
        let (cqring, w) := mmap k.cqring (cqringSize k.params) k.fd ioringOffCqRing w
        let (err, w) := printErr (cqring == 0) "Couldn't map completion queue" w
        if err then (4, w)
        else (0, { w with submitter := fillSubmitter k.fd k.params sqring sqentries cqring })

/-! ## What one call does -/

theorem mmap_eq (answer : Option UInt64) (length : UInt64) (fd : Int) (offset : UInt64)
    (w : Process) :
    mmap answer length fd offset w
      = (pointer answer, { w with
          mappings := (answer.map (fun base => (⟨base, length, fd, offset⟩ : Mapping))).toList
            ++ w.mappings }) := by
  cases answer with
  | none => rfl
  | some base => rfl

/-- The test is handed through, and only the output changes. -/
theorem printErr_eq (t : Bool) (str : String) (w : Process) :
    printErr t str w = (t, { w with
      stderr := if t then w.stderr ++ str else w.stderr
      stdout := if t then w.stdout ++ "\n" else w.stdout }) := by
  cases t with
  | false => rfl
  | true => rfl

/-- The mappings obtained when no test fires, latest first. -/
def obtained (k : Answers) : List Mapping :=
  (k.cqring.map (fun base => (⟨base, cqringSize k.params, k.fd, ioringOffCqRing⟩ : Mapping))).toList
    ++ ((k.sqentries.map
      (fun base => (⟨base, sqentriesSize, k.fd, ioringOffSqes⟩ : Mapping))).toList
    ++ (k.sqring.map
      (fun base => (⟨base, sqringSize k.params, k.fd, ioringOffSqRing⟩ : Mapping))).toList)

/-- One of the tests fires. -/
def Noticed (k : Answers) : Prop :=
  pointer k.sqring = 0 ∨ pointer k.sqentries = 0 ∨ pointer k.cqring = 0

/-- What the function leaves behind when a test fires. -/
structure GivesUp (k : Answers) (w : Process) (r : Int × Process) : Prop where
  ret : r.1 ≠ 0
  submitter : r.2.submitter = w.submitter
  fds : r.2.fds = k.fd :: w.fds

/-- What the function leaves behind when none does. -/
structure Completes (k : Answers) (w : Process) (r : Int × Process) : Prop where
  ret : r.1 = 0
  submitter : r.2.submitter
    = fillSubmitter k.fd k.params (pointer k.sqring) (pointer k.sqentries) (pointer k.cqring)
  mappings : r.2.mappings = obtained k ++ w.mappings

/-- **INVERSION**: once there is a descriptor, the function gives up or completes
    as its tests say, and keeps the descriptor either way. -/
theorem prepareIoUring_cases {k : Answers} (w : Process) (hfd : ¬ k.fd < 0) :
    Noticed k ∧ GivesUp k w (prepareIoUring k w)
      ∨ ¬ Noticed k ∧ Completes k w (prepareIoUring k w) := by
  rw [prepareIoUring, if_neg hfd]
  simp only [mmap_eq, printErr_eq, beq_iff_eq]
  by_cases h₁ : pointer k.sqring = 0
  · rw [if_pos h₁]
    exact Or.inl ⟨Or.inl h₁, (by decide : (2 : Int) ≠ 0), rfl, rfl⟩
  rw [if_neg h₁]
  by_cases h₂ : pointer k.sqentries = 0
  · rw [if_pos h₂]
    exact Or.inl ⟨Or.inr (Or.inl h₂), (by decide : (3 : Int) ≠ 0), rfl, rfl⟩
  rw [if_neg h₂]
  by_cases h₃ : pointer k.cqring = 0
  · rw [if_pos h₃]
    exact Or.inl ⟨Or.inr (Or.inr h₃), (by decide : (4 : Int) ≠ 0), rfl, rfl⟩
  rw [if_neg h₃]
  refine Or.inr ⟨?_, rfl, rfl, ?_⟩
  · rintro (h | h | h)
    · exact h₁ h
    · exact h₂ h
    · exact h₃ h
  · simp [obtained]

/-! ## All or nothing -/

/-- The three answers to `mmap`. -/
def Answers.maps (k : Answers) : List (Option UInt64) := [k.sqring, k.sqentries, k.cqring]

/-- What is asked of a call: 0 for four successes and a submitter that points into
    live mappings only, and otherwise nothing stored and nothing held. -/
structure AllOrNothing (k : Answers) (w : Process) (r : Int × Process) : Prop where
  all : r.1 = 0 →
    (0 ≤ k.fd ∧ ∀ answer ∈ k.maps, answer ≠ none) ∧ ∀ p ∈ r.2.submitter.pointers, r.2.Mapped p
  nothing : r.1 ≠ 0 →
    r.2.submitter = w.submitter ∧ r.2.fds = w.fds ∧ r.2.mappings = w.mappings

/-- All three parts are mapped, none of them at `NULL`. -/
def AllMapped (k : Answers) : Prop := ∀ answer ∈ k.maps, ∃ base, answer = some base ∧ base ≠ 0

/-- No test fires on mapped parts. -/
theorem AllMapped.not_noticed {k : Answers} (h : AllMapped k) : ¬ Noticed k := by
  have hpointer : ∀ answer ∈ k.maps, pointer answer ≠ 0 := by
    intro answer ha
    obtain ⟨base, rfl, hbase⟩ := h answer ha
    exact hbase
  simp only [Answers.maps, List.forall_mem_cons] at hpointer
  rintro (h₁ | h₂ | h₃)
  · exact hpointer.1 h₁
  · exact hpointer.2.1 h₂
  · exact hpointer.2.2.1 h₃

/-- Successes on which no test fires are mapped parts. -/
theorem allMapped_of_not_noticed {k : Answers} (hsome : ∀ answer ∈ k.maps, answer ≠ none)
    (h : ¬ Noticed k) : AllMapped k := by
  intro answer ha
  obtain ⟨base, rfl⟩ := Option.ne_none_iff_exists'.mp (hsome answer ha)
  refine ⟨base, rfl, ?_⟩
  intro hbase
  apply h
  simp only [Answers.maps, List.mem_cons, List.not_mem_nil, or_false] at ha
  rcases ha with ha | ha | ha
  · exact Or.inl (by rw [← ha, hbase]; rfl)
  · exact Or.inr (Or.inl (by rw [← ha, hbase]; rfl))
  · exact Or.inr (Or.inr (by rw [← ha, hbase]; rfl))

/-- An offset into a mapping obtained leads into live memory. -/
theorem Completes.mapped {k : Answers} {w : Process} {r : Int × Process} (h : Completes k w r)
    {m : Mapping} (hm : m ∈ obtained k) {off : UInt64} (hoff : off < m.length) :
    r.2.Mapped (m.base + off) := by
  refine ⟨m, ?_, Mapping.contains_add hoff⟩
  rw [h.mappings]
  exact List.mem_append_left _ hm

/-- **POINTERS**: with all parts mapped, every pointer stored leads into one of them. -/
theorem pointers_mapped {k : Answers} {w : Process} {r : Int × Process} (h : AllMapped k)
    (hoff : k.params.OffsetsInside) (hr : Completes k w r) :
    ∀ p ∈ r.2.submitter.pointers, r.2.Mapped p := by
  obtain ⟨sqring, hsq, -⟩ := h k.sqring (by simp [Answers.maps])
  obtain ⟨sqentries, hse, -⟩ := h k.sqentries (by simp [Answers.maps])
  obtain ⟨cqring, hcq, -⟩ := h k.cqring (by simp [Answers.maps])
  have hsqring : ⟨sqring, sqringSize k.params, k.fd, ioringOffSqRing⟩ ∈ obtained k := by
    simp [obtained, hsq]
  have hsqentries : ⟨sqentries, sqentriesSize, k.fd, ioringOffSqes⟩ ∈ obtained k := by
    simp [obtained, hse]
  have hcqring : ⟨cqring, cqringSize k.params, k.fd, ioringOffCqRing⟩ ∈ obtained k := by
    simp [obtained, hcq]
  have hsqes : r.2.Mapped sqentries := by
    rw [← UInt64.add_zero sqentries]
    exact hr.mapped hsqentries (by decide : 0 < sqentriesSize)
  obtain ⟨hsqoff, hcqoff⟩ := hoff
  simp only [List.forall_mem_cons] at hsqoff hcqoff
  rw [hr.submitter, hsq, hse, hcq]
  simp only [Submitter.pointers, fillSubmitter, List.forall_mem_cons]
  exact ⟨hsqes, hr.mapped hsqring hsqoff.1, hr.mapped hsqring hsqoff.2.1,
    hr.mapped hsqring hsqoff.2.2.1, hr.mapped hsqring hsqoff.2.2.2.1,
    hr.mapped hsqring hsqoff.2.2.2.2.1, hr.mapped hcqring hcqoff.1,
    hr.mapped hcqring hcqoff.2.1, hr.mapped hcqring hcqoff.2.2.1,
    hr.mapped hcqring hcqoff.2.2.2.1, by simp⟩

/-- **ALL OR NOTHING** if and only if the setup fails or nothing after it does. -/
theorem prepareIoUring_allOrNothing_iff (k : Answers) (w : Process)
    (hoff : 0 ≤ k.fd → k.params.OffsetsInside) :
    AllOrNothing k w (prepareIoUring k w) ↔ k.fd < 0 ∨ AllMapped k := by
  by_cases hfd : k.fd < 0
  · have hcall : prepareIoUring k w = (1, { w with
        stderr := w.stderr ++ "Couldn't set up io_uring: " ++ toString k.fd }) := if_pos hfd
    rw [hcall]
    exact iff_of_true ⟨fun h => absurd h (by simp), fun _ => ⟨rfl, rfl, rfl⟩⟩ (Or.inl hfd)
  have hfd' : 0 ≤ k.fd := by omega
  rcases prepareIoUring_cases w hfd with ⟨hnoticed, hr⟩ | ⟨hnot, hr⟩
  · -- the descriptor is still held
    refine iff_of_false ?_ ?_
    · intro h
      have hfds := (h.nothing hr.ret).2.1
      rw [hr.fds] at hfds
      exact absurd hfds (List.cons_ne_self _ _)
    · rintro (h | h)
      · exact hfd h
      · exact h.not_noticed hnoticed
  · constructor
    · intro h
      exact Or.inr (allMapped_of_not_noticed (h.all hr.ret).1.2 hnot)
    · rintro (h | h)
      · exact absurd h hfd
      refine ⟨fun _ => ⟨⟨hfd', ?_⟩, pointers_mapped h (hoff hfd') hr⟩, fun hne => absurd hr.ret hne⟩
      intro answer ha
      obtain ⟨base, rfl, -⟩ := h answer ha
      exact Option.some_ne_none base

/-- Offsets as the kernel lays out a ring of one entry. -/
def oneEntry : IoUringParams where
  cqEntries := 2
  sqOff := ⟨0, 4, 16, 36, 64⟩
  cqOff := ⟨8, 12, 20, 64⟩

/-- A process that holds nothing. -/
def emptyProcess : Process := ⟨⟨0, ⟨0, 0, 0, 0, 0⟩, 0, ⟨0, 0, 0, 0⟩⟩, [], [], "", ""⟩

theorem oneEntry_offsetsInside : oneEntry.OffsetsInside := by
  simp only [IoUringParams.OffsetsInside, List.forall_mem_cons]
  exact ⟨⟨by decide, by decide, by decide, by decide, by decide, by simp⟩,
    ⟨by decide, by decide, by decide, by decide, by simp⟩⟩

/-- A descriptor and two addresses; the submission ring is mapped as told. -/
def answersFor (sqring : Option UInt64) : Answers :=
  ⟨3, oneEntry, sqring, some 0x7f0000001000, some 0x7f0000002000⟩

/-- Every call succeeds. -/
theorem prepareIoUring_allOrNothing_mapped :
    AllOrNothing (answersFor (some 0x7f0000000000)) emptyProcess
      (prepareIoUring (answersFor (some 0x7f0000000000)) emptyProcess) := by
  refine (prepareIoUring_allOrNothing_iff _ _ (fun _ => oneEntry_offsetsInside)).mpr (Or.inr ?_)
  simp [AllMapped, Answers.maps, answersFor]

/-- The mapping of the submission ring fails: 0 is returned, and the head of the ring
    is read at the top of the address space. -/
theorem allOrNothing_fails_mapFailed :
    ¬ ∀ (k : Answers) (w : Process), (0 ≤ k.fd → k.params.OffsetsInside) →
      AllOrNothing k w (prepareIoUring k w) := by
  intro h
  have hcall := h (answersFor none) emptyProcess (fun _ => oneEntry_offsetsInside)
  exact (hcall.all (by decide)).1.2 none (by decide) rfl

end CPetSetup
