import CPet.ChunkedReadProofs
import CPet.RunProofs
import Mathlib.Data.List.Forall2

/-! # `writesync_hi` and `writeasync_lo`

    Both writers open a file for appending and put ten lines with its name into
    it.  One goes through a stream of the C library, which passes the bytes on
    as it sees fit, tries again after a short write, and may drop bytes after a
    failed one.  The other calls `write` itself and never looks at a result.

    The results are up to the kernel, within the rules: a call takes at most the
    bytes it is given, and none on a descriptor that was not opened for writing.
    `writeasync_lo` names no access mode, which is the read-only one, so nothing
    it writes gets into the file. -/

namespace CPetWriter

open CPetRun
open CPetChunkedRead (filename oNonblock)

/-! ## The kernel's side -/

/-- `O_WRONLY`. -/
def oWronly : UInt32 := 1

/-- `O_CREAT`. -/
def oCreat : UInt32 := 64

/-- `O_APPEND`. -/
def oAppend : UInt32 := 1024

/-- The access mode, `O_WRONLY` or `O_RDWR`, admits writing. -/
def Writable (flags : UInt32) : Prop := flags &&& 3 = 1 ∨ flags &&& 3 = 2

instance (flags : UInt32) : Decidable (Writable flags) := inferInstanceAs (Decidable (_ ∨ _))

/-- Flags of a descriptor whose writes all go to the end of the file. -/
structure AppendFlags where
  bits : UInt32
  append : bits &&& oAppend = oAppend

/-- The file, the descriptors open on it, what the calls of `write` have returned,
    and what has been printed. -/
structure World where
  content : List UInt8
  descriptors : List (Int × AppendFlags)
  results : List Int
  outputs : List String

/-- What `open` answers for a name and flags, -1 for a failure; and how many bytes
    the `i`-th call of `write` takes if it may, unless it fails. -/
structure Kernel where
  opens : String → UInt32 → Int
  takes : Nat → Option Nat

/-- What `write(fd, ...)` returns for a number of bytes. -/
def writeResult (kernel : Kernel) (fd : Int) (count : Nat) (w : World) : Int :=
  match w.descriptors.lookup fd with
  | none => -1
  | some flags =>
      if Writable flags.bits then
        (kernel.takes w.results.length).elim (-1) (fun n => ((min n count : Nat) : Int))
      else -1

/-- `write(fd, data, ...)`. -/
def write (kernel : Kernel) (fd : Int) (data : List UInt8) (w : World) : Int × World :=
  let r := writeResult kernel fd data.length w
  (r, { w with content := w.content ++ data.take r.toNat, results := w.results ++ [r] })

def World.opened (w : World) (fd : Int) (flags : AppendFlags) : World :=
  { w with descriptors := (fd, flags) :: w.descriptors }

/-- `close(fd)`. -/
def World.closed (w : World) (fd : Int) : World :=
  { w with descriptors := w.descriptors.eraseP (fun d => d.1 == fd) }

/-- `printf("Couldn't open %s for writing", filename)`. -/
def World.refused (w : World) : World :=
  { w with outputs := w.outputs ++ ["Couldn't open " ++ filename ++ " for writing"] }

/-! ## `writeasync_lo` -/

/-- The bytes of `filename`. -/
def name : List UInt8 := filename.toList.map Char.toUInt8

/-- `"\n"`. -/
def newline : List UInt8 := [10]

/-- A round of the loop. -/
def writeLine (kernel : Kernel) (fd : Int) (w : World) : World :=
  let (_, w) := write kernel fd name w
  let (_, w) := write kernel fd newline w
  w

/-- The writer, for the flags it opens the file with. -/
def writeLo (kernel : Kernel) (flags : AppendFlags) (w : World) : Int × World :=
  let fd := kernel.opens filename flags.bits
  if fd = -1 then (1, w.refused)
  else
    let w := w.opened fd flags
    let w := forRange 10 (fun _ w => writeLine kernel fd w) w
    (0, w.closed fd)

/-- `O_APPEND | O_NONBLOCK`. -/
def asyncFlags : AppendFlags := ⟨oAppend ||| oNonblock, by decide⟩

/-- `writeasync_lo()`. -/
def writeasyncLo (kernel : Kernel) (w : World) : Int × World := writeLo kernel asyncFlags w

/-! ## `writesync_hi` -/

/-- Passing the bytes of a buffer on: what is left of them, and whether all went well. -/
structure Flush where
  buffer : List UInt8
  ok : Bool
  world : World

/-- Write what is left until nothing is, or a call fails; one that takes nothing has failed. -/
def flushLoop (kernel : Kernel) (fd : Int) : Loop Flush where
  guard := fun s => s.ok && !s.buffer.isEmpty
  body := fun s =>
    let (r, w) := write kernel fd s.buffer s.world
    ⟨s.buffer.drop r.toNat, decide (0 < r), w⟩
  rank := fun s => s.buffer.length + s.ok.toNat
  dec := by
    intro s h
    obtain ⟨hok, hne⟩ := Bool.and_eq_true_iff.mp h
    have hpos : 0 < s.buffer.length := by
      refine List.length_pos_iff.mpr ?_
      intro hnil
      rw [hnil] at hne
      exact absurd hne (by decide)
    show (s.buffer.drop _).length + (decide _).toNat < s.buffer.length + s.ok.toNat
    rw [hok, List.length_drop]
    by_cases hr : 0 < (write kernel fd s.buffer s.world).1
    · rw [decide_eq_true hr, Nat.add_lt_add_iff_right]
      omega
    · rw [decide_eq_false hr]
      exact Nat.lt_succ_of_le (Nat.sub_le _ _)

def flush (kernel : Kernel) (fd : Int) (buffer : List UInt8) (w : World) : List UInt8 × World :=
  let s := (flushLoop kernel fd).run ⟨buffer, true, w⟩
  (s.buffer, s.world)

/-- A stream: its descriptor and the bytes not passed on yet. -/
structure Stream where
  fd : Int
  buffer : List UInt8

/-- What is up to the C library: how many bytes of a buffer it passes on when it is given
    more, and which bytes it keeps if it fails to. -/
structure Library where
  ready : List UInt8 → Nat
  keeps : List UInt8 → List UInt8
  sublist : ∀ buffer, (keeps buffer).Sublist buffer

/-- The buffer after a flush has left `rest`, with `more` behind it. -/
def Library.left (lib : Library) (rest more : List UInt8) : List UInt8 :=
  if rest = [] then more else lib.keeps (rest ++ more)

/-- `fwrite(data, ...)`. -/
def fwrite (kernel : Kernel) (lib : Library) (data : List UInt8) (s : Stream × World) :
    Stream × World :=
  let (f, w) := s
  let buffer := f.buffer ++ data
  let (rest, w) := flush kernel f.fd (buffer.take (lib.ready buffer)) w
  ({ f with buffer := lib.left rest (buffer.drop (lib.ready buffer)) }, w)

/-- `fclose(fd)`. -/
def fclose (kernel : Kernel) (s : Stream × World) : World :=
  let (f, w) := s
  let (_, w) := flush kernel f.fd f.buffer w
  w.closed f.fd

/-- `fopen(filename, "a")` opens with `O_WRONLY | O_CREAT | O_APPEND`. -/
def syncFlags : AppendFlags := ⟨oWronly ||| oCreat ||| oAppend, by decide⟩

/-- A round of the loop. -/
def fwriteLine (kernel : Kernel) (lib : Library) (s : Stream × World) : Stream × World :=
  let s := fwrite kernel lib name s
  fwrite kernel lib newline s

/-- `writesync_hi()`. -/
def writesyncHi (kernel : Kernel) (lib : Library) (w : World) : Int × World :=
  let fd := kernel.opens filename syncFlags.bits
  if fd = -1 then (1, w.refused)
  else
    let w := w.opened fd syncFlags
    let s := forRange 10 (fun _ s => fwriteLine kernel lib s) (⟨fd, []⟩, w)
    (0, fclose kernel s)

/-- Ten copies of the file name and a newline. -/
def tenLines : List UInt8 := (List.replicate 10 (name ++ newline)).flatten

/-! ## Calls of `write` -/

/-- What the rules allow a call to return: at most what it was given, and -1 without
    write access. -/
def Permitted (flags : AppendFlags) (data : List UInt8) (r : Int) : Prop :=
  r ≤ data.length ∧ (¬ Writable flags.bits → r = -1)

/-- The bytes that calls with given results have taken. -/
def taken (asked : List (List UInt8)) (rs : List Int) : List UInt8 :=
  (List.zipWith (fun data r => data.take r.toNat) asked rs).flatten

/-- Calls have been made one after the other, and nothing else has changed. -/
def Wrote (flags : AppendFlags) (w : World) (asked : List (List UInt8)) (w' : World) : Prop :=
  ∃ rs, List.Forall₂ (Permitted flags) asked rs
    ∧ w' = { w with content := w.content ++ taken asked rs, results := w.results ++ rs }

/-- What `write` returns is within the rules. -/
theorem permitted_writeResult {flags : AppendFlags} {fd : Int} {w : World}
    (h : w.descriptors.lookup fd = some flags) (kernel : Kernel) (data : List UInt8) :
    Permitted flags data (writeResult kernel fd data.length w) := by
  simp only [writeResult, h]
  by_cases hw : Writable flags.bits
  · rw [if_pos hw]
    refine ⟨?_, fun hno => absurd hw hno⟩
    cases kernel.takes w.results.length with
    | none => exact (by omega : (-1 : Int) ≤ data.length)
    | some n => exact Int.ofNat_le.mpr (Nat.min_le_right n data.length)
  · rw [if_neg hw]
    exact ⟨by omega, fun _ => rfl⟩

section Calls

variable {flags : AppendFlags} {w : World}

/-- Bytes taken later follow those taken before. -/
theorem taken_append {asked asked' : List (List UInt8)} {rs rs' : List Int}
    (h : asked.length = rs.length) :
    taken (asked ++ asked') (rs ++ rs') = taken asked rs ++ taken asked' rs' := by
  rw [taken, List.zipWith_append h, List.flatten_append]
  rfl

theorem Wrote.append {asked asked' : List (List UInt8)} {w' w'' : World}
    (h : Wrote flags w asked w') (h' : Wrote flags w' asked' w'') :
    Wrote flags w (asked ++ asked') w'' := by
  obtain ⟨rs, hrs, rfl⟩ := h
  obtain ⟨rs', hrs', rfl⟩ := h'
  refine ⟨rs ++ rs', List.rel_append hrs hrs', ?_⟩
  rw [taken_append hrs.length_eq, List.append_assoc, List.append_assoc]

/-- **STEP**: one call. -/
theorem wrote_write {fd : Int} (h : w.descriptors.lookup fd = some flags) (kernel : Kernel)
    (data : List UInt8) : Wrote flags w [data] (write kernel fd data w).2 := by
  refine ⟨[writeResult kernel fd data.length w],
    List.Forall₂.cons (permitted_writeResult h kernel data) List.Forall₂.nil, ?_⟩
  have htaken : taken [data] [writeResult kernel fd data.length w]
      = data.take (writeResult kernel fd data.length w).toNat := List.append_nil _
  rw [htaken]
  rfl

/-- The calls of `n` rounds. -/
def requests (n : Nat) : List (List UInt8) := (List.replicate n [name, newline]).flatten

/-- A round makes two calls. -/
theorem wrote_writeLine {fd : Int} (h : w.descriptors.lookup fd = some flags) (kernel : Kernel) :
    Wrote flags w [name, newline] (writeLine kernel fd w) := by
  have hname := wrote_write h kernel name
  have hdescriptors : (write kernel fd name w).2.descriptors.lookup fd = some flags := h
  exact hname.append (wrote_write hdescriptors kernel newline)

/-- **RUN**: the loop. -/
theorem wrote_rounds {fd : Int} (h : w.descriptors.lookup fd = some flags) (kernel : Kernel)
    (n : Nat) : Wrote flags w (requests n) (forRange n (fun _ w => writeLine kernel fd w) w) := by
  refine forRange_invariant (I := fun n w' => Wrote flags w (requests n) w') n ?_ ?_
  · refine ⟨[], List.Forall₂.nil, ?_⟩
    show w = { w with content := w.content ++ [], results := w.results ++ [] }
    rw [List.append_nil, List.append_nil]
  · intro k _ w' hw'
    have hdescriptors : w'.descriptors.lookup fd = some flags := by
      obtain ⟨rs, -, rfl⟩ := hw'
      exact h
    have hsucc : requests (k + 1) = requests k ++ [name, newline] := by
      rw [requests, List.replicate_succ', List.flatten_append, List.flatten_singleton]
      rfl
    rw [hsucc]
    exact hw'.append (wrote_writeLine hdescriptors kernel)

/-- Without write access nothing is taken. -/
theorem taken_of_not_writable (hflags : ¬ Writable flags.bits) {asked : List (List UInt8)}
    {rs : List Int} (h : List.Forall₂ (Permitted flags) asked rs) : taken asked rs = [] := by
  induction h with
  | nil => rfl
  | cons hr _ ih =>
      rw [hr.2 hflags, taken, List.zipWith_cons_cons, List.flatten_cons]
      exact ih

/-- No more is taken than was given. -/
theorem length_taken_le (asked : List (List UInt8)) (rs : List Int) :
    (taken asked rs).length ≤ asked.flatten.length := by
  induction asked generalizing rs with
  | nil => exact Nat.zero_le _
  | cons data asked ih =>
      cases rs with
      | nil => exact Nat.zero_le _
      | cons r rs =>
          have htake : (data.take r.toNat).length ≤ data.length := List.length_take_le' _ _
          rw [taken, List.zipWith_cons_cons, List.flatten_cons, List.flatten_cons,
            List.length_append, List.length_append]
          exact Nat.add_le_add htake (ih rs)

/-- **NOTHING LOST**: all the bytes are taken exactly when every call returns as many as
    it was given. -/
theorem taken_eq_flatten_iff {asked : List (List UInt8)} {rs : List Int}
    (hne : ∀ data ∈ asked, data ≠ []) (h : List.Forall₂ (Permitted flags) asked rs) :
    taken asked rs = asked.flatten ↔ rs = asked.map (fun data => (data.length : Int)) := by
  induction h with
  | nil => exact iff_of_true rfl rfl
  | @cons data r asked rs hr _ ih =>
      have ih := ih (fun d hd => hne d (List.mem_cons_of_mem _ hd))
      have hpos : 0 < data.length := List.length_pos_iff.mpr (hne data List.mem_cons_self)
      have hle : r ≤ data.length := hr.1
      show data.take r.toNat ++ taken asked rs = data ++ asked.flatten
        ↔ r :: rs = (data.length : Int) :: asked.map (fun data => (data.length : Int))
      rw [List.cons_eq_cons]
      constructor
      · intro heq
        -- neither part can be longer than what it is part of, so neither is shorter
        have hsum := congrArg List.length heq
        have htaken := length_taken_le asked rs
        rw [List.length_append, List.length_append, List.length_take] at hsum
        obtain ⟨-, hrest⟩ := List.append_inj heq (by rw [List.length_take]; omega)
        exact ⟨by omega, ih.mp hrest⟩
      · rintro ⟨rfl, hrest⟩
        rw [Int.toNat_natCast, List.take_length, ih.mpr hrest]

end Calls

/-- What is opened and then closed is gone. -/
theorem closed_descriptors {w w' : World} {fd : Int} {flags : AppendFlags}
    (h : w'.descriptors = (w.opened fd flags).descriptors) :
    (w'.closed fd).descriptors = w.descriptors := by
  show w'.descriptors.eraseP (fun d => d.1 == fd) = w.descriptors
  rw [h]
  exact List.eraseP_cons_of_pos (beq_self_eq_true _)

/-- A file that cannot be opened is left alone. -/
theorem writeLo_refused {kernel : Kernel} {flags : AppendFlags}
    (hopen : kernel.opens filename flags.bits = -1) (w : World) :
    writeLo kernel flags w = (1, w.refused) := by
  rw [writeLo]
  exact if_pos hopen

/-- **A RUN** of the writer whose file opens. -/
theorem writeLo_run (kernel : Kernel) (flags : AppendFlags) (w : World)
    (hopen : kernel.opens filename flags.bits ≠ -1) :
    ∃ rs, List.Forall₂ (Permitted flags) (requests 10) rs
      ∧ (writeLo kernel flags w).1 = 0
      ∧ (writeLo kernel flags w).2.content = w.content ++ taken (requests 10) rs
      ∧ (writeLo kernel flags w).2.results = w.results ++ rs
      ∧ (writeLo kernel flags w).2.descriptors = w.descriptors := by
  have hlookup : (w.opened (kernel.opens filename flags.bits) flags).descriptors.lookup
      (kernel.opens filename flags.bits) = some flags := List.lookup_cons_self
  obtain ⟨rs, hrs, hrounds⟩ := wrote_rounds hlookup kernel 10
  have hrun : writeLo kernel flags w
      = (0, (forRange 10 (fun _ w => writeLine kernel (kernel.opens filename flags.bits) w)
          (w.opened (kernel.opens filename flags.bits) flags)).closed
            (kernel.opens filename flags.bits)) := by
    rw [writeLo]
    exact if_neg hopen
  rw [hrun, hrounds]
  exact ⟨rs, hrs, rfl, rfl, rfl, closed_descriptors rfl⟩

/-- What was opened is closed again. -/
theorem writeLo_descriptors (kernel : Kernel) (flags : AppendFlags) (w : World) :
    (writeLo kernel flags w).2.descriptors = w.descriptors := by
  by_cases hopen : kernel.opens filename flags.bits = -1
  · rw [writeLo_refused hopen]
    rfl
  · obtain ⟨rs, -, -, -, -, hdescriptors⟩ := writeLo_run kernel flags w hopen
    exact hdescriptors

/-- The calls of ten rounds are given the ten lines. -/
theorem flatten_requests : (requests 10).flatten = tenLines := by decide

/-- **UNCHECKED RESULTS**: the lines are all in the file exactly when every call has
    returned as many bytes as it was given. -/
theorem writeLo_content_iff (kernel : Kernel) (flags : AppendFlags) (w : World)
    (hopen : kernel.opens filename flags.bits ≠ -1) :
    (writeLo kernel flags w).2.content = w.content ++ tenLines
      ↔ (writeLo kernel flags w).2.results
          = w.results ++ (requests 10).map (fun data => (data.length : Int)) := by
  obtain ⟨rs, hrs, -, hcontent, hresults, -⟩ := writeLo_run kernel flags w hopen
  have hne : ∀ data ∈ requests 10, data ≠ [] := by
    intro data hdata
    obtain ⟨line, hline, hmem⟩ := List.mem_flatten.mp hdata
    rw [List.eq_of_mem_replicate hline] at hmem
    rcases List.mem_pair.mp hmem with rfl | rfl
    · decide
    · decide
  rw [hcontent, hresults, List.append_cancel_left_eq, List.append_cancel_left_eq,
    ← flatten_requests]
  exact taken_eq_flatten_iff hne hrs

/-- The access mode of `writeasync_lo` is the read-only one. -/
theorem not_writable_asyncFlags : ¬ Writable asyncFlags.bits := by decide

/-- **NOTHING IS WRITTEN**: the file stays as it is. -/
theorem writeasyncLo_content (kernel : Kernel) (w : World) :
    (writeasyncLo kernel w).2.content = w.content := by
  by_cases hopen : kernel.opens filename asyncFlags.bits = -1
  · rw [writeasyncLo, writeLo_refused hopen]
    rfl
  · obtain ⟨rs, hrs, -, hcontent, -, -⟩ := writeLo_run kernel asyncFlags w hopen
    rw [writeasyncLo, hcontent, taken_of_not_writable not_writable_asyncFlags hrs,
      List.append_nil]

/-! ## The stream -/

/-- The kernel opens the file, and each call of `write` takes at least a byte. -/
structure Willing (kernel : Kernel) : Prop where
  opens : kernel.opens filename syncFlags.bits ≠ -1
  takes : ∀ i, ∃ n, 0 < n ∧ kernel.takes i = some n

/-- No call that has returned one of these has failed, or taken nothing. -/
def NoneFailed (rs : List Int) : Prop := ∀ r ∈ rs, 0 < r

theorem noneFailed_append {rs rs' : List Int} :
    NoneFailed (rs ++ rs') ↔ NoneFailed rs ∧ NoneFailed rs' := List.forall_mem_append

/-- Calls of `write` on one descriptor have put this text behind the file, and have returned
    these results; none has failed if the kernel is willing. -/
structure Called (kernel : Kernel) (fd : Int) (w : World) (new : List UInt8) (rs : List Int)
    (w' : World) : Prop where
  content : w'.content = w.content ++ new
  results : w'.results = w.results ++ rs
  descriptors : w'.descriptors = w.descriptors
  noneFailed : Willing kernel → w.descriptors.lookup fd = some syncFlags → NoneFailed rs

section Stream

variable {kernel : Kernel} {fd : Int} {w w' w'' : World}

theorem Called.refl (kernel : Kernel) (fd : Int) (w : World) : Called kernel fd w [] [] w :=
  ⟨(List.append_nil _).symm, (List.append_nil _).symm, rfl, fun _ _ => List.forall_mem_nil _⟩

/-- Calls after calls are calls. -/
theorem Called.trans {new new' : List UInt8} {rs rs' : List Int}
    (h : Called kernel fd w new rs w') (h' : Called kernel fd w' new' rs' w'') :
    Called kernel fd w (new ++ new') (rs ++ rs') w'' where
  content := by rw [h'.content, h.content, List.append_assoc]
  results := by rw [h'.results, h.results, List.append_assoc]
  descriptors := h'.descriptors.trans h.descriptors
  noneFailed := by
    intro hkernel hfd
    refine noneFailed_append.mpr ⟨h.noneFailed hkernel hfd, h'.noneFailed hkernel ?_⟩
    rw [h.descriptors]
    exact hfd

/-- One call, with something to write. -/
theorem called_write (kernel : Kernel) (fd : Int) {data : List UInt8} (hne : data ≠ [])
    (w : World) :
    Called kernel fd w (data.take (write kernel fd data w).1.toNat)
      [(write kernel fd data w).1] (write kernel fd data w).2 where
  content := rfl
  results := rfl
  descriptors := rfl
  noneFailed := by
    intro hkernel hfd r hr
    obtain ⟨n, hn, htakes⟩ := hkernel.takes w.results.length
    have hlen : 0 < data.length := List.length_pos_iff.mpr hne
    have hwritable : Writable syncFlags.bits := by decide
    have hresult : (write kernel fd data w).1 = ((min n data.length : Nat) : Int) := by
      simp only [write, writeResult, hfd, if_pos hwritable, htakes, Option.elim]
    rw [List.mem_singleton.mp hr, hresult]
    omega

/-- What a flush keeps: the bytes that have not gone into the file are in the buffer. -/
def Flushing (kernel : Kernel) (fd : Int) (w : World) (data : List UInt8) (s : Flush) : Prop :=
  ∃ new rs, Called kernel fd w new rs s.world ∧ new ++ s.buffer = data
    ∧ (NoneFailed rs → s.ok = true)

/-- **STEP**: a call passes on what is left, or part of it. -/
theorem flushing_body {data : List UInt8} {s : Flush} (h : Flushing kernel fd w data s)
    (hguard : (flushLoop kernel fd).guard s = true) :
    Flushing kernel fd w data ((flushLoop kernel fd).body s) := by
  -- the guard is only true while something is left
  have hne : s.buffer ≠ [] := by
    intro hnil
    have hfalse := (Bool.and_eq_true_iff.mp hguard).2
    rw [hnil] at hfalse
    exact absurd hfalse (by decide)
  obtain ⟨new, rs, hcalled, hdata, -⟩ := h
  refine ⟨_, _, hcalled.trans (called_write kernel fd hne s.world), ?_, ?_⟩
  · show new ++ s.buffer.take (write kernel fd s.buffer s.world).1.toNat
      ++ s.buffer.drop (write kernel fd s.buffer s.world).1.toNat = data
    rw [List.append_assoc, List.take_append_drop]
    exact hdata
  · intro hrs
    exact decide_eq_true ((noneFailed_append.mp hrs).2 _ List.mem_cons_self)

/-- **FLUSH**: a beginning of the bytes goes into the file, and unless a call fails,
    everything does. -/
theorem called_flush (kernel : Kernel) (fd : Int) (data : List UInt8) (w : World) :
    ∃ new rs, Called kernel fd w new rs (flush kernel fd data w).2
      ∧ new ++ (flush kernel fd data w).1 = data
      ∧ (NoneFailed rs → (flush kernel fd data w).1 = []) := by
  have hrun : Flushing kernel fd w data ((flushLoop kernel fd).run ⟨data, true, w⟩) :=
    Loop.run_invariant (fun s hs hguard => flushing_body hs hguard) _
      ⟨[], [], Called.refl kernel fd w, rfl, fun _ => rfl⟩
  have hexit := Loop.run_exit (flushLoop kernel fd) ⟨data, true, w⟩
  obtain ⟨new, rs, hcalled, hdata, hok⟩ := hrun
  refine ⟨new, rs, hcalled, hdata, ?_⟩
  intro hrs
  -- the loop has not ended because of a failure, so nothing is left
  by_contra hnil
  refine hexit (Bool.and_eq_true_iff.mpr ⟨hok hrs, ?_⟩)
  rw [Bool.not_eq_true', List.isEmpty_eq_false_iff]
  exact hnil

/-- No byte is dropped: the library keeps everything, or passes nothing on before the stream
    is closed. -/
def Library.DropsNone (lib : Library) : Prop :=
  (∀ buffer, lib.ready buffer = 0) ∨ ∀ buffer, lib.keeps buffer = buffer

/-- The library makes nothing up. -/
theorem Library.left_sublist (lib : Library) (rest more : List UInt8) :
    (lib.left rest more).Sublist (rest ++ more) := by
  rw [Library.left]
  split
  · exact List.sublist_append_right rest more
  · exact lib.sublist (rest ++ more)

/-- What a stream holds in file and buffer is some of what it was given, in that order, and
    everything if no byte is dropped or no call fails. -/
theorem called_fwrite (kernel : Kernel) (lib : Library) (data : List UInt8)
    (s : Stream × World) :
    ∃ new rs, Called kernel s.1.fd s.2 new rs (fwrite kernel lib data s).2
      ∧ (new ++ (fwrite kernel lib data s).1.buffer).Sublist (s.1.buffer ++ data)
      ∧ (lib.DropsNone ∨ NoneFailed rs →
          new ++ (fwrite kernel lib data s).1.buffer = s.1.buffer ++ data) := by
  generalize hbuffer : s.1.buffer ++ data = buffer
  have hleft : (fwrite kernel lib data s).1.buffer
      = lib.left (flush kernel s.1.fd (buffer.take (lib.ready buffer)) s.2).1
          (buffer.drop (lib.ready buffer)) := by
    rw [← hbuffer]
    rfl
  have hworld : (fwrite kernel lib data s).2
      = (flush kernel s.1.fd (buffer.take (lib.ready buffer)) s.2).2 := by
    rw [← hbuffer]
    rfl
  obtain ⟨new, rs, hcalled, hdata, hrest⟩ :=
    called_flush kernel s.1.fd (buffer.take (lib.ready buffer)) s.2
  rw [hleft, hworld]
  generalize (flush kernel s.1.fd (buffer.take (lib.ready buffer)) s.2).1 = rest at hdata hrest ⊢
  have hall : new ++ (rest ++ buffer.drop (lib.ready buffer)) = buffer := by
    rw [← List.append_assoc, hdata, List.take_append_drop]
  refine ⟨new, rs, hcalled, ?_, ?_⟩
  · have hsub := (lib.left_sublist rest (buffer.drop (lib.ready buffer))).append_left new
    rw [hall] at hsub
    exact hsub
  · intro hkept
    by_cases hnil : rest = []
    · rw [hnil, List.nil_append] at hall
      rw [Library.left, if_pos hnil]
      exact hall
    · rw [Library.left, if_neg hnil]
      rcases hkept with (hready | hkeeps) | hrs
      · rw [hready, List.take_zero] at hdata
        exact absurd (List.append_eq_nil_iff.mp hdata).2 hnil
      · rw [hkeeps]
        exact hall
      · exact absurd (hrest hrs) hnil

/-- What the loop keeps: some of the text so far, in its order, is in the file or in the
    stream's buffer, and all of it if no byte is dropped or no call fails. -/
def Streaming (kernel : Kernel) (lib : Library) (fd : Int) (w : World) (data : List UInt8)
    (s : Stream × World) : Prop :=
  s.1.fd = fd ∧ ∃ new rs, Called kernel fd w new rs s.2
    ∧ (new ++ s.1.buffer).Sublist data
    ∧ (lib.DropsNone ∨ NoneFailed rs → new ++ s.1.buffer = data)

/-- That stays so with more to write. -/
theorem streaming_fwrite {lib : Library} {data : List UInt8} {s : Stream × World}
    (h : Streaming kernel lib fd w data s) (more : List UInt8) :
    Streaming kernel lib fd w (data ++ more) (fwrite kernel lib more s) := by
  obtain ⟨rfl, new, rs, hcalled, hsub, hall⟩ := h
  obtain ⟨new', rs', hcalled', hsub', hall'⟩ := called_fwrite kernel lib more s
  refine ⟨rfl, _, _, hcalled.trans hcalled', ?_, ?_⟩
  · have hnew := hsub'.append_left new
    rw [← List.append_assoc, ← List.append_assoc] at hnew
    exact hnew.trans (hsub.append_right more)
  · intro hkept
    have hboth : (lib.DropsNone ∨ NoneFailed rs) ∧ (lib.DropsNone ∨ NoneFailed rs') := by
      rw [← or_and_left, ← noneFailed_append]
      exact hkept
    rw [List.append_assoc, hall' hboth.2, ← List.append_assoc, hall hboth.1]

/-- **STEP**: a round adds a line. -/
theorem streaming_fwriteLine {lib : Library} {data : List UInt8} {s : Stream × World}
    (h : Streaming kernel lib fd w data s) :
    Streaming kernel lib fd w (data ++ (name ++ newline)) (fwriteLine kernel lib s) := by
  rw [← List.append_assoc]
  exact streaming_fwrite (streaming_fwrite h name) newline

/-- **RUN**: what the loop has written is in the file or in the buffer. -/
theorem streaming_rounds (kernel : Kernel) (lib : Library) (fd : Int) (w : World) (n : Nat) :
    Streaming kernel lib fd w (List.replicate n (name ++ newline)).flatten
      (forRange n (fun _ s => fwriteLine kernel lib s) (⟨fd, []⟩, w)) := by
  refine forRange_invariant (I := fun n s =>
    Streaming kernel lib fd w (List.replicate n (name ++ newline)).flatten s) n ?_ ?_
  · exact ⟨rfl, [], [], Called.refl kernel fd w, List.Sublist.refl [], fun _ => rfl⟩
  · intro k _ s hs
    rw [List.replicate_succ', List.flatten_append, List.flatten_singleton]
    exact streaming_fwriteLine hs

end Stream

/-- **THE STREAM WRITER**, when its file opens: bytes of the ten lines go behind the file in
    their order, a beginning of the lines if no byte is dropped, all of them unless a call
    fails; and what was opened is closed. -/
theorem writesyncHi_run (kernel : Kernel) (lib : Library) (w : World)
    (hopen : kernel.opens filename syncFlags.bits ≠ -1) :
    ∃ new rs, (writesyncHi kernel lib w).2.content = w.content ++ new
      ∧ (writesyncHi kernel lib w).2.results = w.results ++ rs
      ∧ (writesyncHi kernel lib w).2.descriptors = w.descriptors
      ∧ new.Sublist tenLines ∧ (lib.DropsNone → new <+: tenLines)
      ∧ (NoneFailed rs → new = tenLines) ∧ (Willing kernel → NoneFailed rs) := by
  generalize hopens : kernel.opens filename syncFlags.bits = fd at hopen
  have hrun : writesyncHi kernel lib w
      = (0, fclose kernel (forRange 10 (fun _ s => fwriteLine kernel lib s)
          (⟨fd, []⟩, w.opened fd syncFlags))) := by
    rw [writesyncHi, hopens]
    exact if_neg hopen
  have hrounds := streaming_rounds kernel lib fd (w.opened fd syncFlags) 10
  rw [hrun]
  generalize forRange 10 (fun _ s => fwriteLine kernel lib s) _ = s at hrounds ⊢
  obtain ⟨rfl, new, rs, hcalled, hsub, hall⟩ := hrounds
  -- closing the stream flushes what is left in its buffer
  obtain ⟨new', rs', hcalled', hdata, hrest⟩ := called_flush kernel s.1.fd s.1.buffer s.2
  generalize (flush kernel s.1.fd s.1.buffer s.2).1 = rest at hdata hrest
  have hcalls := hcalled.trans hcalled'
  have hprefix : new ++ new' <+: new ++ s.1.buffer := by
    refine ⟨rest, ?_⟩
    rw [List.append_assoc, hdata]
  refine ⟨new ++ new', rs ++ rs', hcalls.content, hcalls.results,
    closed_descriptors hcalls.descriptors, hprefix.sublist.trans hsub, ?_, ?_, ?_⟩
  · intro hlib
    rw [tenLines, ← hall (Or.inl hlib)]
    exact hprefix
  · intro hrs
    obtain ⟨hold, hlast⟩ := noneFailed_append.mp hrs
    rw [hrest hlast, List.append_nil] at hdata
    rw [hdata]
    exact hall (Or.inr hold)
  · intro hkernel
    exact hcalls.noneFailed hkernel List.lookup_cons_self

/-- A file that cannot be opened is left alone. -/
theorem writesyncHi_refused {kernel : Kernel}
    (hopen : kernel.opens filename syncFlags.bits = -1) (lib : Library) (w : World) :
    writesyncHi kernel lib w = (1, w.refused) := by
  rw [writesyncHi]
  exact if_pos hopen

/-- **TEN LINES** are in the file when no call of `write` has failed. -/
theorem writesyncHi_content (kernel : Kernel) (lib : Library) (w : World)
    (hopen : kernel.opens filename syncFlags.bits ≠ -1)
    (hpos : ∀ r ∈ (writesyncHi kernel lib w).2.results.drop w.results.length, 0 < r) :
    (writesyncHi kernel lib w).2.content = w.content ++ tenLines := by
  obtain ⟨new, rs, hcontent, hresults, -, -, -, hall, -⟩ := writesyncHi_run kernel lib w hopen
  rw [hresults, List.drop_left] at hpos
  rw [hcontent, hall hpos]

/-! ## Both writers -/

/-- Whenever `writeasync_lo` returns 0, the ten lines are behind what was in the file; and
    so they are when `writesync_hi` returns 0 and none of its calls of `write` failed. -/
def SameEffect (kernel : Kernel) (lib : Library) (w : World) : Prop :=
  ((writeasyncLo kernel w).1 = 0 → (writeasyncLo kernel w).2.content = w.content ++ tenLines)
    ∧ ((writesyncHi kernel lib w).1 = 0 →
        (∀ r ∈ (writesyncHi kernel lib w).2.results.drop w.results.length, 0 < r) →
        (writesyncHi kernel lib w).2.content = w.content ++ tenLines)

/-- **ONLY IF IT CANNOT OPEN THE FILE**, and says so, is `writeasync_lo` right. -/
theorem sameEffect_iff (kernel : Kernel) (lib : Library) (w : World) :
    SameEffect kernel lib w ↔ kernel.opens filename (oAppend ||| oNonblock) = -1 := by
  constructor
  · rintro ⟨hasync, -⟩
    by_contra hopen
    obtain ⟨-, -, hzero, -, -, -⟩ := writeLo_run kernel asyncFlags w hopen
    have hlines := hasync hzero
    rw [writeasyncLo_content, List.self_eq_append_right] at hlines
    exact absurd hlines (by decide)
  · intro hopen
    have hrefused : (writeasyncLo kernel w).1 = 1 :=
      congrArg Prod.fst (@writeLo_refused kernel asyncFlags hopen w)
    refine ⟨fun hzero => absurd (hrefused.symm.trans hzero) (by decide), ?_⟩
    intro hzero hpos
    refine writesyncHi_content kernel lib w ?_ hpos
    intro hsync
    have hone : (writesyncHi kernel lib w).1 = 1 :=
      congrArg Prod.fst (writesyncHi_refused hsync lib w)
    exact absurd (hone.symm.trans hzero) (by decide)

/-- An empty file, and a kernel that opens it and takes all it may. -/
def emptyFile : World := ⟨[], [], [], []⟩

def willing : Kernel := ⟨fun _ _ => 3, fun _ => some 4096⟩

/-- A library that passes everything on at once. -/
def unbuffered : Library := ⟨List.length, id, List.Sublist.refl⟩

theorem writeasyncLo_empty :
    (writeasyncLo willing emptyFile).1 = 0
      ∧ (writeasyncLo willing emptyFile).2.content = []
      ∧ ¬ SameEffect willing unbuffered emptyFile := by
  refine ⟨by decide, by decide, ?_⟩
  rintro ⟨hasync, -⟩
  exact absurd (hasync (by decide)) (by decide)

end CPetWriter
