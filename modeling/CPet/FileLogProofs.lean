import CPet.WriterProofs

/-! # The file of the readers and writers as a log

    `writesync_hi`, `writeasync_lo`, `readsync_lo` and `readasync_lo` all work on
    one file.  Whoever calls them in any order can think of that file as an
    append-only log: `writesync_hi` appends bytes of its ten lines in their order,
    `writeasync_lo` nothing, and a reader sees pieces of the log, each up to its
    first NUL.

    This takes nothing from the kernel but that reads deliver the file from its
    start: any `open` may fail, any `write` may fail or be short, and reads may stop
    early.  If nothing of this happens, and the file is free of NULs, each
    `writesync_hi` appends its ten lines and each reader sees the whole log. -/

namespace CPetFileLog

open CPetRun CPetWriter CPetChunkedRead

/-! ## Programs -/

/-- One call of the four functions, with the kernel's and the C library's answers to it. -/
inductive Command where
  | writesyncHi (kernel : Kernel) (lib : Library)
  | writeasyncLo (kernel : Kernel)
  | readsyncLo (fs : FileSystem) (stale : Nat → UInt8)
  | readasyncLo (fs : FileSystem) (stale : Nat → UInt8)

/-- The writers' world, the readers' open descriptors, and what each reader has
    passed to `puts`. -/
structure Store where
  world : World
  fds : List Int
  prints : List (List UInt8)

/-- A reader's call. -/
def Store.read (s : Store) (r : Int × Reader) : Store :=
  { s with fds := r.2.fds, prints := s.prints ++ [putsBytes r.2.outputs] }

def exec (s : Store) : Command → Store
  | .writesyncHi kernel lib => { s with world := (writesyncHi kernel lib s.world).2 }
  | .writeasyncLo kernel => { s with world := (writeasyncLo kernel s.world).2 }
  | .readsyncLo fs stale => s.read (readsyncLo fs stale s.fds)
  | .readasyncLo fs stale => s.read (readasyncLo fs stale s.fds)

/-- A program, one call after the other. -/
def execAll (program : List Command) (s : Store) : Store := program.foldl exec s

/-- Whatever a reader is delivered is the file from its start on. -/
def Command.Reads (content : List UInt8) : Command → Prop
  | .writesyncHi _ _ => True
  | .writeasyncLo _ => True
  | .readsyncLo fs _ => DeliversStart fs oRdonly content
  | .readasyncLo fs _ => DeliversStart fs (oRdonly ||| oNonblock) content

/-- So it is throughout a program, with the file as it is at each call. -/
def Reads : List Command → Store → Prop
  | [], _ => True
  | c :: cs, s => c.Reads s.world.content ∧ Reads cs (exec s c)

/-! ## The log -/

/-- A log: what is in it, and what its readers have seen. -/
structure Log where
  content : List UInt8
  seen : List (List UInt8)

/-- Text is put behind the log. -/
def Log.append (l : Log) (new : List UInt8) : Log := { l with content := l.content ++ new }

/-- A reader sees pieces of the log, each up to its first NUL. -/
def Log.see (l : Log) (pieces : List (List UInt8)) : Log :=
  { l with seen := l.seen ++ [pieces.flatMap upToNul] }

/-- What a writer may do: bytes of its lines are appended in their order; a beginning of the
    lines if the library drops none, all of them if the kernel is willing, and nothing if the
    file does not open. -/
def Writes (kernel : Kernel) (lib : Library) (l l' : Log) : Prop :=
  ∃ new, new.Sublist tenLines ∧ l' = l.append new
    ∧ (lib.DropsNone → new <+: tenLines)
    ∧ (Willing kernel → new = tenLines)
    ∧ (kernel.opens filename syncFlags.bits = -1 → new = [])

/-- What a reader may do: it sees the pieces of the log that it is delivered, and these are the
    log up to some point. -/
def Sees (fs : FileSystem) (flags : UInt32) (l l' : Log) : Prop :=
  (pieces fs flags).flatten <+: l.content ∧ l' = l.see (pieces fs flags)

/-- What a call may do to the log. -/
def Command.Acts (l l' : Log) : Command → Prop
  | .writesyncHi kernel lib => Writes kernel lib l l'
  | .writeasyncLo _ => l' = l
  | .readsyncLo fs _ => Sees fs oRdonly l l'
  | .readasyncLo fs _ => Sees fs (oRdonly ||| oNonblock) l l'

/-- What a program may do to it. -/
def LogRun : List Command → Log → Log → Prop
  | [], l, l' => l' = l
  | c :: cs, l, l'' => ∃ l', c.Acts l l' ∧ LogRun cs l' l''

/-- What a call is for. -/
def logStep (l : Log) : Command → Log
  | .writesyncHi _ _ => { l with content := l.content ++ tenLines }
  | .writeasyncLo _ => l
  | .readsyncLo _ _ => { l with seen := l.seen ++ [l.content] }
  | .readasyncLo _ _ => { l with seen := l.seen ++ [l.content] }

def logAll (program : List Command) (l : Log) : Log := program.foldl logStep l

/-- Nothing goes wrong with a call on a file with this content. -/
def Command.Served (content : List UInt8) : Command → Prop
  | .writesyncHi kernel _ => Willing kernel
  | .writeasyncLo _ => True
  | .readsyncLo fs _ => Delivers fs oRdonly content
  | .readasyncLo fs _ => Delivers fs (oRdonly ||| oNonblock) content

/-- Nothing goes wrong with a program: each reader is delivered the log as it then is. -/
def Served : List Command → Log → Prop
  | [], _ => True
  | c :: cs, l => c.Served l.content ∧ Served cs (logStep l c)

/-! ## Runs of the log -/

/-- Nothing is taken back: what was in the log is in front of what is in it now, and what its
    readers had seen is in front of what they have seen. -/
def Log.Extends (l l' : Log) : Prop := l.content <+: l'.content ∧ l.seen <+: l'.seen

theorem Log.Extends.refl (l : Log) : l.Extends l := ⟨List.prefix_rfl, List.prefix_rfl⟩

/-- Nothing is taken back later, either. -/
theorem Log.Extends.trans {l l' l'' : Log} (h : l.Extends l') (h' : l'.Extends l'') :
    l.Extends l'' := ⟨h.1.trans h'.1, h.2.trans h'.2⟩

/-- A writer takes nothing back, -/
theorem Writes.append_only {kernel : Kernel} {lib : Library} {l l' : Log}
    (h : Writes kernel lib l l') : l.Extends l' := by
  obtain ⟨new, -, rfl, -⟩ := h
  exact ⟨List.prefix_append _ _, List.prefix_rfl⟩

/-- nor does a reader. -/
theorem Sees.append_only {fs : FileSystem} {flags : UInt32} {l l' : Log}
    (h : Sees fs flags l l') : l.Extends l' := by
  obtain ⟨-, rfl⟩ := h
  exact ⟨List.prefix_rfl, List.prefix_append _ _⟩

/-- **APPEND-ONLY**: no run takes anything back. -/
theorem LogRun.append_only {program : List Command} :
    ∀ {l l' : Log}, LogRun program l l' → l.Extends l' := by
  induction program with
  | nil =>
      rintro _ l rfl
      exact Log.Extends.refl l
  | cons c cs ih =>
      rintro l l'' ⟨l', hc, hrun⟩
      refine Log.Extends.trans ?_ (ih hrun)
      cases c with
      | writesyncHi kernel lib => exact Writes.append_only hc
      | writeasyncLo kernel => exact hc ▸ Log.Extends.refl l
      | readsyncLo fs stale => exact Sees.append_only hc
      | readasyncLo fs stale => exact Sees.append_only hc

/-- A reader that is delivered a NUL-free log sees the log. -/
theorem Sees.eq_of_delivers {fs : FileSystem} {flags : UInt32} {l l' : Log}
    (h : Sees fs flags l l') (hnul : (0 : UInt8) ∉ l.content)
    (hfs : Delivers fs flags l.content) : l' = { l with seen := l.seen ++ [l.content] } := by
  obtain ⟨-, rfl⟩ := h
  have hflat := flatten_pieces hfs
  have hseen : (pieces fs flags).flatMap upToNul = (pieces fs flags).flatten := by
    refine (flatMap_upToNul_eq_iff _).mpr ?_
    rw [hflat]
    exact hnul
  rw [Log.see, hseen, hflat]

/-- **STEP**: with nothing going wrong, a call does what it is for. -/
theorem Command.Acts.eq_logStep {c : Command} {l l' : Log} (h : c.Acts l l')
    (hnul : (0 : UInt8) ∉ l.content) (hc : c.Served l.content) : l' = logStep l c := by
  cases c with
  | writesyncHi kernel lib =>
      obtain ⟨new, -, rfl, -, hall, -⟩ := h
      rw [hall hc]
      rfl
  | writeasyncLo kernel => exact h
  | readsyncLo fs stale => exact Sees.eq_of_delivers h hnul hc
  | readasyncLo fs stale => exact Sees.eq_of_delivers h hnul hc

theorem nul_not_mem_tenLines : (0 : UInt8) ∉ tenLines := by decide

/-- No call puts a NUL into the log. -/
theorem nul_not_mem_logStep {l : Log} (h : (0 : UInt8) ∉ l.content) (c : Command) :
    (0 : UInt8) ∉ (logStep l c).content := by
  cases c with
  | writesyncHi kernel lib =>
      intro hmem
      rcases List.mem_append.mp hmem with hold | hnew
      · exact h hold
      · exact nul_not_mem_tenLines hnew
  | writeasyncLo kernel => exact h
  | readsyncLo fs stale => exact h
  | readasyncLo fs stale => exact h

/-- **RUN**: and so does a program. -/
theorem LogRun.eq_logAll {program : List Command} :
    ∀ {l l' : Log}, LogRun program l l' → (0 : UInt8) ∉ l.content → Served program l →
      l' = logAll program l := by
  induction program with
  | nil => intro l l' h _ _; exact h
  | cons c cs ih =>
      rintro l l'' ⟨l', hc, hrun⟩ hnul ⟨hserved, hrest⟩
      obtain rfl := hc.eq_logStep hnul hserved
      exact ih hrun (nul_not_mem_logStep hnul c) hrest

/-! ## The functions on the log -/

/-- The log a store stands for. -/
def Store.log (s : Store) : Log := ⟨s.world.content, s.prints⟩

/-- The stream writer appends to the log and closes what it has opened. -/
theorem writes_writesyncHi (kernel : Kernel) (lib : Library) (s : Store) :
    Writes kernel lib s.log (exec s (.writesyncHi kernel lib)).log
      ∧ (exec s (.writesyncHi kernel lib)).world.descriptors = s.world.descriptors := by
  by_cases hopen : kernel.opens filename syncFlags.bits = -1
  · have hexec : exec s (.writesyncHi kernel lib) = { s with world := s.world.refused } := by
      rw [exec, writesyncHi_refused hopen]
    have happend : s.log = s.log.append [] := by
      rw [Log.append, List.append_nil]
    rw [hexec]
    exact ⟨⟨[], List.nil_sublist _, happend, fun _ => List.nil_prefix,
      fun hkernel => absurd hopen hkernel.opens, fun _ => rfl⟩, rfl⟩
  · obtain ⟨new, rs, hcontent, -, hdescriptors, hsub, hprefix, hall, hkernel⟩ :=
      writesyncHi_run kernel lib s.world hopen
    refine ⟨⟨new, hsub, ?_, hprefix, fun hwilling => hall (hkernel hwilling),
      fun hfail => absurd hfail hopen⟩, hdescriptors⟩
    show Log.mk (writesyncHi kernel lib s.world).2.content s.prints = s.log.append new
    rw [hcontent]
    rfl

/-- A reader sees of the log what it is delivered. -/
theorem sees_readLo {flags : UInt32} {fs : FileSystem} {s : Store}
    (hfs : DeliversStart fs flags s.world.content) (stale : Nat → UInt8) :
    Sees fs flags s.log (s.read (readLo flags fs stale s.fds)).log := by
  refine ⟨hfs, ?_⟩
  show Log.mk s.world.content (s.prints ++ [_]) = s.log.see (pieces fs flags)
  rw [readLo_putsBytes]
  rfl

/-- **STEP**: a call does to the log what it may do. -/
theorem acts_exec {s : Store} {c : Command} (hc : c.Reads s.world.content) :
    c.Acts s.log (exec s c).log := by
  cases c with
  | writesyncHi kernel lib => exact (writes_writesyncHi kernel lib s).1
  | writeasyncLo kernel =>
      show Log.mk (writeasyncLo kernel s.world).2.content s.prints = s.log
      rw [writeasyncLo_content]
      rfl
  | readsyncLo fs stale => exact sees_readLo hc stale
  | readasyncLo fs stale => exact sees_readLo hc stale

/-- **RUN**: and so does a program. -/
theorem logRun_execAll (program : List Command) :
    ∀ {s : Store}, Reads program s → LogRun program s.log (execAll program s).log := by
  induction program with
  | nil => intro s _; rfl
  | cons c cs ih =>
      rintro s ⟨hc, hcs⟩
      exact ⟨_, acts_exec hc, ih hcs⟩

/-- When nothing goes wrong, reads deliver the file, so they deliver it from its start on. -/
theorem Command.Served.reads {c : Command} {content : List UInt8} (h : c.Served content) :
    c.Reads content := by
  have hstart : ∀ {fs : FileSystem} {flags : UInt32}, Delivers fs flags content →
      DeliversStart fs flags content := by
    intro fs flags hfs
    exact ⟨[], by rw [List.append_nil, flatten_pieces hfs]⟩
  cases c with
  | writesyncHi kernel lib => trivial
  | writeasyncLo kernel => trivial
  | readsyncLo fs stale => exact hstart h
  | readasyncLo fs stale => exact hstart h

/-- And so it is throughout the program. -/
theorem Served.reads (program : List Command) :
    ∀ {s : Store}, (0 : UInt8) ∉ s.world.content → Served program s.log → Reads program s := by
  induction program with
  | nil => intro s _ _; trivial
  | cons c cs ih =>
      rintro s hnul ⟨hc, hcs⟩
      -- the log after the call is the one the rest of the program is served on
      have hlog : (exec s c).log = logStep s.log c := (acts_exec hc.reads).eq_logStep hnul hc
      refine ⟨hc.reads, ih ?_ ?_⟩
      · show (0 : UInt8) ∉ (exec s c).log.content
        rw [hlog]
        exact nul_not_mem_logStep hnul c
      · rw [hlog]
        exact hcs

/-- Every call leaves the open descriptors as they were. -/
theorem exec_descriptors (s : Store) (c : Command) :
    (exec s c).world.descriptors = s.world.descriptors ∧ (exec s c).fds = s.fds := by
  cases c with
  | writesyncHi kernel lib => exact ⟨(writes_writesyncHi kernel lib s).2, rfl⟩
  | writeasyncLo kernel => exact ⟨writeLo_descriptors kernel asyncFlags s.world, rfl⟩
  | readsyncLo fs stale => exact ⟨rfl, readLo_fds _ fs stale s.fds⟩
  | readasyncLo fs stale => exact ⟨rfl, readLo_fds _ fs stale s.fds⟩

theorem execAll_descriptors (program : List Command) :
    ∀ s : Store, (execAll program s).world.descriptors = s.world.descriptors
      ∧ (execAll program s).fds = s.fds := by
  induction program with
  | nil => intro s; exact ⟨rfl, rfl⟩
  | cons c cs ih =>
      intro s
      obtain ⟨hdescriptors, hfds⟩ := exec_descriptors s c
      obtain ⟨hdescriptors', hfds'⟩ := ih (exec s c)
      exact ⟨hdescriptors'.trans hdescriptors, hfds'.trans hfds⟩

/-- **THE FILE IS AN APPEND-ONLY LOG**: whatever fails, a program of the four functions does
    to file and prints what it may do to a log, nothing is taken back, and no descriptor is
    left open.  If nothing fails and the file is free of NULs, each writer has appended its
    lines, and each reader has printed the log as it was at its turn. -/
theorem program_refines_log (program : List Command) (s : Store) :
    (Reads program s →
        LogRun program s.log (execAll program s).log
          ∧ s.log.Extends (execAll program s).log)
      ∧ ((0 : UInt8) ∉ s.world.content → Served program s.log →
          (execAll program s).log = logAll program s.log)
      ∧ (execAll program s).world.descriptors = s.world.descriptors
      ∧ (execAll program s).fds = s.fds := by
  obtain ⟨hdescriptors, hfds⟩ := execAll_descriptors program s
  refine ⟨?_, ?_, hdescriptors, hfds⟩
  · intro hreads
    have hrun := logRun_execAll program hreads
    exact ⟨hrun, hrun.append_only⟩
  · intro hnul hserved
    exact (logRun_execAll program (Served.reads program hnul hserved)).eq_logAll hnul hserved

/-- A willing kernel takes the ten lines. -/
theorem content_writesyncHi {kernel : Kernel} (hkernel : Willing kernel) (lib : Library)
    (s : Store) :
    (exec s (.writesyncHi kernel lib)).world.content = s.world.content ++ tenLines := by
  obtain ⟨⟨new, -, hlog, -, hall, -⟩, -⟩ := writes_writesyncHi kernel lib s
  rw [← hall hkernel]
  exact congrArg Log.content hlog

def lineChunk : Chunk := ⟨name ++ newline, by decide, by decide⟩

/-- A file that is delivered in this many chunks of a line each. -/
def linesRead (n : Nat) : FileSystem := fun _ _ => some (3, List.replicate n lineChunk)

/-- An empty file, no descriptor open, nothing printed. -/
def nothingYet : Store := ⟨emptyFile, [], []⟩

/-- A library that keeps nothing after a failure. -/
def forgetful : Library := ⟨List.length, fun _ => [], List.nil_sublist⟩

/-- The file is missing at first, then cannot be opened for writing; it is written by both
    writers, read up to its second line, and written again by writes of which some fail and
    the others are short. -/
def someFail : List Command :=
  [.readsyncLo (fun _ _ => none) (fun _ => 88),
    .writesyncHi ⟨fun _ _ => -1, fun _ => none⟩ unbuffered, .writesyncHi willing unbuffered,
    .writeasyncLo willing, .readasyncLo (linesRead 2) (fun _ => 88),
    .writesyncHi ⟨fun _ _ => 3, fun i => if i % 2 = 0 then none else some 5⟩ forgetful]

/-- The file is written by both writers, and read line by line. -/
def noneFails : List Command :=
  [.writesyncHi willing unbuffered, .writeasyncLo willing,
    .readsyncLo (linesRead 10) (fun _ => 88)]

theorem willing_willing : Willing willing := ⟨by decide, fun _ => ⟨4096, by decide, rfl⟩⟩

/-- What both writers leave of an empty file. -/
theorem content_bothWriters {s : Store} (h : s.world.content = []) :
    (exec (exec s (.writesyncHi willing unbuffered)) (.writeasyncLo willing)).world.content
      = tenLines := by
  have hlo := writeasyncLo_content willing (exec s (.writesyncHi willing unbuffered)).world
  rw [content_writesyncHi willing_willing, h] at hlo
  exact hlo

theorem reads_someFail : Reads someFail nothingYet := by
  refine ⟨List.nil_prefix, trivial, trivial, trivial, ?_, trivial, trivial⟩
  show (pieces (linesRead 2) _).flatten <+: _
  rw [content_bothWriters rfl]
  decide

/-- A program in which calls fail, and one in which none does. -/
theorem program_refines_log_linesRead :
    (LogRun someFail nothingYet.log (execAll someFail nothingYet).log
        ∧ nothingYet.log.Extends (execAll someFail nothingYet).log)
      ∧ (execAll noneFails nothingYet).log = logAll noneFails nothingYet.log :=
  ⟨(program_refines_log someFail nothingYet).1 reads_someFail,
    (program_refines_log noneFails nothingYet).2.1 (by decide)
      ⟨willing_willing, trivial, ⟨3, _, rfl, by decide⟩, trivial⟩⟩

end CPetFileLog
