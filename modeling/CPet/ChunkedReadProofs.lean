import CPet.CStringProofs

/-! # `readsync_lo` and `readasync_lo`

    Both readers fetch up to 1023 bytes into a buffer of 1024, store a NUL
    behind the bytes that came, and hand the buffer to `puts`.  `puts` stops
    at the first NUL, which may be one of the file's own.

    So what they print of a file is free of NULs, however the reads cut it, and
    it is the whole file exactly when the file is free of NULs. -/

namespace CPetChunkedRead

open CPetMemory CPetCString

/-- `BUFFER_SIZE`. -/
def bufferSize : Nat := 1023

/-- What a successful `read` of `BUFFER_SIZE` bytes delivers. -/
structure Chunk where
  bytes : List UInt8
  pos : 0 < bytes.length
  le : bytes.length ≤ bufferSize

/-- One call that writes to stdout. -/
inductive Output where
  | puts (text : List UInt8)
  | printf (text : String)

/-- The open descriptors, the local buffer and the output so far. -/
structure Reader where
  fds : List Int
  buffer : Block UInt8
  outputs : List Output

/-- `puts(buffer)`: the buffer is read as a C string. -/
def puts (r : Reader) : Reader :=
  let text := cString (cells r.buffer.cell r.buffer.size)
  { r with outputs := r.outputs ++ [.puts (text.getD [])] }

/-- The body of the loop, after a `read` that has delivered a chunk. -/
def printChunk (c : Chunk) (r : Reader) : Reader :=
  let n := c.bytes.length
  let r := puts { r with buffer := (r.buffer.storeList 0 c.bytes).store n 0 }
  { r with outputs := r.outputs ++ [.printf ("*** END OF BUFFER: " ++ toString n)] }

/-- `while ((n = read(fd, buffer, BUFFER_SIZE)) > 0)`: the chunks come one after
    the other, and then a result of 0. -/
def readLoop : List Chunk → Reader → Reader
  | [], r => r
  | c :: cs, r => readLoop cs (printChunk c r)

/-- `O_RDONLY`. -/
def oRdonly : UInt32 := 0

/-- `O_NONBLOCK`. -/
def oNonblock : UInt32 := 2048

/-- The name of the file read. -/
def filename : String := "somefile.txt"

/-- What `open` answers for a name and flags: a descriptor with the chunks that
    will be read from it, unless it fails. -/
abbrev FileSystem := String → UInt32 → Option (Int × List Chunk)

/-- The two readers, which differ in the flags they open the file with;
    `stale` is what the local buffer holds before. -/
def readLo (flags : UInt32) (fs : FileSystem) (stale : Nat → UInt8) (fds : List Int) :
    Int × Reader :=
  let r : Reader := ⟨fds, ⟨bufferSize + 1, stale⟩, []⟩
  match fs filename flags with
  | none =>
      (2, { r with
        outputs := r.outputs ++ [.printf ("Couldn't open " ++ filename ++ " for reading\n")] })
  | some (fd, chunks) =>
      let r := readLoop chunks { r with fds := fd :: r.fds }
      (0, { r with fds := r.fds.erase fd })

/-- `readsync_lo()`. -/
def readsyncLo (fs : FileSystem) (stale : Nat → UInt8) (fds : List Int) : Int × Reader :=
  readLo oRdonly fs stale fds

/-- `readasync_lo()`. -/
def readasyncLo (fs : FileSystem) (stale : Nat → UInt8) (fds : List Int) : Int × Reader :=
  readLo (oRdonly ||| oNonblock) fs stale fds

/-- The texts passed to `puts`, one after the other. -/
def putsBytes (outputs : List Output) : List UInt8 :=
  outputs.flatMap (fun o => match o with
    | .puts text => text
    | .printf _ => [])

/-! ## One chunk -/

/-- The part of a text in front of its first NUL. -/
def upToNul (bytes : List UInt8) : List UInt8 := bytes.takeWhile (fun b => b != 0)

def Chunk.text (c : Chunk) : List UInt8 := upToNul c.bytes

/-- Later output follows earlier output. -/
theorem putsBytes_append (os os' : List Output) :
    putsBytes (os ++ os') = putsBytes os ++ putsBytes os' :=
  List.flatMap_append

/-- Of a round, the marker is not counted. -/
theorem putsBytes_round (text : List UInt8) (marker : String) :
    putsBytes [.puts text, .printf marker] = text := by
  simp [putsBytes]

/-- The terminator stored behind a chunk is inside the buffer, so the buffer reads
    as the chunk's text. -/
theorem cString_buffer (c : Chunk) {b : Block UInt8} (hb : b.size = bufferSize + 1) :
    cString (cells ((b.storeList 0 c.bytes).store c.bytes.length 0).cell b.size)
      = some c.text := by
  have hle := c.le
  have hsize : b.size = c.bytes.length + (bufferSize - c.bytes.length + 1) := by omega
  have hfront : cells ((b.storeList 0 c.bytes).store c.bytes.length 0).cell c.bytes.length
      = c.bytes := by
    rw [cells_congr (g := (b.storeList 0 c.bytes).cell), cells_storeList]
    intro k hk
    exact store_cell_of_ne _ _ (Nat.ne_of_lt hk)
  rw [hsize, cells_add, hfront, cells_succ, Nat.add_zero, store_cell_self, cString_append_nul]
  rfl

/-- **STEP**: a round prints the chunk's text and the marker. -/
theorem printChunk_outputs (c : Chunk) {r : Reader} (hr : r.buffer.size = bufferSize + 1) :
    (printChunk c r).outputs = r.outputs
      ++ [.puts c.text, .printf ("*** END OF BUFFER: " ++ toString c.bytes.length)] := by
  have htext := cString_buffer c hr
  simp only [printChunk, puts, store_size, storeList_size, htext, Option.getD_some,
    List.append_assoc, List.cons_append, List.nil_append]

theorem printChunk_size (c : Chunk) (r : Reader) :
    (printChunk c r).buffer.size = r.buffer.size := by
  simp [printChunk, puts]

theorem printChunk_fds (c : Chunk) (r : Reader) : (printChunk c r).fds = r.fds := rfl

/-! ## The whole loop -/

/-- **RUN**: of every chunk the text is printed. -/
theorem readLoop_putsBytes :
    ∀ (chunks : List Chunk) {r : Reader}, r.buffer.size = bufferSize + 1 →
      putsBytes (readLoop chunks r).outputs
        = putsBytes r.outputs ++ chunks.flatMap Chunk.text := by
  intro chunks
  induction chunks with
  | nil => intro r _; simp [readLoop]
  | cons c cs ih =>
      intro r hr
      have hsize := printChunk_size c r
      rw [readLoop, ih (hsize.trans hr), printChunk_outputs c hr, putsBytes_append,
        putsBytes_round, List.append_assoc, List.flatMap_cons]

/-- The loop opens and closes nothing. -/
theorem readLoop_fds :
    ∀ (chunks : List Chunk) (r : Reader), (readLoop chunks r).fds = r.fds := by
  intro chunks
  induction chunks with
  | nil => intro r; rfl
  | cons c cs ih => intro r; rw [readLoop, ih, printChunk_fds]

/-- Cut at their first NULs, the pieces of a text still make up the text exactly when it is
    NUL-free. -/
theorem flatMap_upToNul_eq_iff (pieces : List (List UInt8)) :
    pieces.flatMap upToNul = pieces.flatten ↔ (0 : UInt8) ∉ pieces.flatten := by
  constructor
  · intro heq
    rw [← heq, List.mem_flatMap]
    rintro ⟨bytes, -, hmem⟩
    have hne := List.mem_takeWhile_imp hmem
    exact absurd hne (by decide)
  · intro hnul
    rw [← List.flatMap_id]
    refine List.flatMap_congr ?_
    intro bytes hbytes
    refine takeWhile_nul_free ?_
    intro hmem
    exact hnul (List.mem_flatten.mpr ⟨bytes, hbytes, hmem⟩)

/-! ## The readers -/

/-- The file can be opened with these flags, and its chunks make up the content. -/
def Delivers (fs : FileSystem) (flags : UInt32) (content : List UInt8) : Prop :=
  ∃ fd chunks, fs filename flags = some (fd, chunks) ∧ chunks.flatMap Chunk.bytes = content

/-- The pieces in which the file is delivered; none if it cannot be opened. -/
def pieces (fs : FileSystem) (flags : UInt32) : List (List UInt8) :=
  match fs filename flags with
  | none => []
  | some (_, chunks) => chunks.map Chunk.bytes

/-- What is delivered is the content from its start on. -/
def DeliversStart (fs : FileSystem) (flags : UInt32) (content : List UInt8) : Prop :=
  (pieces fs flags).flatten <+: content

/-- A reader has printed the content. -/
def Lossless (content : List UInt8) (r : Int × Reader) : Prop := putsBytes r.2.outputs = content

section Readers

variable {fs : FileSystem} {flags : UInt32} {content : List UInt8}

/-- A file that cannot be opened is reported, and nothing is printed of it. -/
theorem readLo_unopened (h : fs filename flags = none) (stale : Nat → UInt8) (fds : List Int) :
    (readLo flags fs stale fds).1 = 2 ∧ putsBytes (readLo flags fs stale fds).2.outputs = [] := by
  simp [readLo, h, putsBytes]

/-- The descriptor opened is closed again. -/
theorem readLo_fds (flags : UInt32) (fs : FileSystem) (stale : Nat → UInt8) (fds : List Int) :
    (readLo flags fs stale fds).2.fds = fds := by
  rw [readLo]
  cases h : fs filename flags with
  | none => rfl
  | some opened =>
      show (readLoop opened.2 _).fds.erase opened.1 = fds
      rw [readLoop_fds]
      exact List.erase_cons_head ..

/-- **PRINTED**: what a reader passes to `puts` is every piece delivered, up to its first
    NUL. -/
theorem readLo_putsBytes (flags : UInt32) (fs : FileSystem) (stale : Nat → UInt8)
    (fds : List Int) :
    putsBytes (readLo flags fs stale fds).2.outputs = (pieces fs flags).flatMap upToNul := by
  cases h : fs filename flags with
  | none =>
      rw [pieces, h]
      exact (readLo_unopened h stale fds).2
  | some opened =>
      rw [readLo, pieces, h, List.flatMap_map]
      exact readLoop_putsBytes opened.2 rfl

theorem flatten_pieces (h : Delivers fs flags content) : (pieces fs flags).flatten = content := by
  obtain ⟨fd, chunks, hopen, rfl⟩ := h
  rw [pieces, hopen]
  exact List.flatMap_def.symm

/-- **LOSSLESS**, for either flags. -/
theorem readLo_lossless_iff (h : Delivers fs flags content) (stale : Nat → UInt8)
    (fds : List Int) : Lossless content (readLo flags fs stale fds) ↔ (0 : UInt8) ∉ content := by
  rw [Lossless, readLo_putsBytes, ← flatten_pieces h]
  exact flatMap_upToNul_eq_iff (pieces fs flags)

end Readers

/-- **LOSSLESS** if and only if the file is free of NULs, for both readers. -/
theorem readers_lossless_iff {fs : FileSystem} {content : List UInt8}
    (hsync : Delivers fs oRdonly content) (hasync : Delivers fs (oRdonly ||| oNonblock) content)
    (stale : Nat → UInt8) (fds : List Int) :
    (Lossless content (readsyncLo fs stale fds) ↔ (0 : UInt8) ∉ content)
      ∧ (Lossless content (readasyncLo fs stale fds) ↔ (0 : UInt8) ∉ content) :=
  ⟨readLo_lossless_iff hsync stale fds, readLo_lossless_iff hasync stale fds⟩

/-- A file system whose file is delivered in one piece. -/
def oneChunk (c : Chunk) : FileSystem := fun _ _ => some (3, [c])

/-- The whole content is delivered. -/
theorem oneChunk_delivers (c : Chunk) (flags : UInt32) : Delivers (oneChunk c) flags c.bytes :=
  ⟨3, [c], rfl, List.append_nil c.bytes⟩

/-- The text `hi`, delivered a letter at a time. -/
def hiByLetters : FileSystem :=
  fun _ _ => some (3, [⟨[104], by decide, by decide⟩, ⟨[105], by decide, by decide⟩])

theorem hiByLetters_delivers (flags : UInt32) : Delivers hiByLetters flags [104, 105] :=
  ⟨3, _, rfl, rfl⟩

/-- Both readers, on the two chunks. -/
theorem readers_lossless_iff_hi :
    (Lossless [104, 105] (readsyncLo hiByLetters (fun _ => 0) [])
        ↔ (0 : UInt8) ∉ ([104, 105] : List UInt8))
      ∧ (Lossless [104, 105] (readasyncLo hiByLetters (fun _ => 0) [])
        ↔ (0 : UInt8) ∉ ([104, 105] : List UInt8)) :=
  readers_lossless_iff (hiByLetters_delivers _) (hiByLetters_delivers _) _ _

/-- Of a NUL between two letters, the first letter is printed. -/
theorem lossless_fails_nul :
    ¬ ∀ (fs : FileSystem) (content : List UInt8) (stale : Nat → UInt8) (fds : List Int),
      Delivers fs oRdonly content → Lossless content (readsyncLo fs stale fds) := by
  intro h
  have hread := h _ _ (fun _ => 0) [] (oneChunk_delivers ⟨[104, 0, 105], by decide, by decide⟩ _)
  exact (readLo_lossless_iff (oneChunk_delivers _ _) _ _).mp hread (by decide)

end CPetChunkedRead
