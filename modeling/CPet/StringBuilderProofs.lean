import CPet.StrconcatProofs
import Mathlib.Data.List.Induction

/-! # Building a string by repeated `strconcat`

    The convention of `Matrix_toString` and of the `strconcat` test: start with
    one zero byte and length 0, pass the running length as `dstLen`, and add
    `appendLen` to it after every call.

    Everything before the running length is the concatenation of the chunks.
    Whether the block can be READ as that string is another matter: the byte
    at the running length is never stored, so it is a terminator exactly when
    `realloc` happened to leave a zero there. -/

namespace CPetStringBuilder

open CPetMemory CPetCString CPetStrconcat

/-- The locals of the building loop, `result` and `len`, and the memory. -/
structure Builder where
  mem : StrMem
  result : Option Nat
  len : UInt64

/-- `result = calloc(1, 1); len = 0`. -/
def Builder.start (callocOk : Bool) : Builder :=
  if callocOk then
    let (p, heap) := Heap.empty.alloc ⟨1, fun _ => 0⟩
    ⟨⟨heap, [], [], ""⟩, some p, 0⟩
  else ⟨⟨Heap.empty, [], [], ""⟩, none, 0⟩

/-- `result = strconcat(result, append, len, appendLen); len += appendLen`. -/
def Builder.append (rt : Allocator) (append : Nat → UInt8) (appendLen : UInt64)
    (b : Builder) : Builder :=
  let (result, mem) := strconcat rt b.result append b.len appendLen b.mem
  ⟨mem, result, b.len + appendLen⟩

/-- The result read as a C string. -/
def Builder.readString (b : Builder) : Option (List UInt8) :=
  (b.result.bind b.mem.heap.live).bind (fun blk => cString (cells blk.cell blk.size))

/-- No `realloc` has failed so far. -/
def Builder.AllSucceed (b : Builder) : Prop :=
  ∀ ok ∈ b.mem.reallocs, ok = true

instance (b : Builder) : Decidable b.AllSucceed :=
  inferInstanceAs (Decidable (∀ ok ∈ b.mem.reallocs, ok = true))

/-- The result block holds `text`, with one byte to spare. -/
structure Holds (b : Builder) (p : Nat) (blk : Block UInt8) (text : List UInt8) :
    Prop where
  result : b.result = some p
  live : b.mem.heap.live p = some blk
  size : blk.size = text.length + 1
  small : blk.size ≤ ptrdiffMax
  len : b.len.toNat = text.length
  text : cells blk.cell text.length = text

/-- `calloc(1, 1)` holds the empty text. -/
theorem holds_start :
    Holds (Builder.start true) 0 ⟨1, fun _ => 0⟩ [] :=
  ⟨rfl, rfl, rfl, by decide, rfl, rfl⟩

theorem Holds.blockAt {b : Builder} {p : Nat} {blk : Block UInt8}
    {text : List UInt8} (h : Holds b p blk text) :
    blockAt b.mem.heap b.result = blk := by
  rw [h.result]
  exact blockAt_of_live h.live

/-- The block reads as the text exactly when a NUL stands behind it. -/
theorem Holds.readString_iff {b : Builder} {p : Nat} {blk : Block UInt8}
    {text : List UInt8} (h : Holds b p blk text) (hnul : (0 : UInt8) ∉ text) :
    b.readString = some text ↔ blk.cell text.length = 0 := by
  have hread : b.readString = cString (cells blk.cell blk.size) := by
    rw [Builder.readString, h.result, Option.bind_some, h.live]
    rfl
  rw [hread, cString_cells_iff]
  constructor
  · rintro ⟨_, _, _, hend⟩
    exact hend
  · intro hend
    have hsize := h.size
    exact ⟨by omega, h.text, hnul, hend⟩

/-! ## One append -/

section Append

variable {rt : Allocator} {b : Builder} {append : Nat → UInt8} {appendLen : UInt64}

theorem append_len : (b.append rt append appendLen).len = b.len + appendLen := rfl

theorem append_result : (b.append rt append appendLen).result
    = (strconcat rt b.result append b.len appendLen b.mem).1 := rfl

theorem append_mem : (b.append rt append appendLen).mem
    = (strconcat rt b.result append b.len appendLen b.mem).2 := rfl

/-- Each append asks `realloc` once. -/
theorem append_reallocs :
    ∃ ok, (b.append rt append appendLen).mem.reallocs = ok :: b.mem.reallocs := by
  rcases strconcat_cases rt b.result append b.len appendLen b.mem with
    hfail | ⟨stale, hok⟩
  · exact ⟨false, hfail.reallocs⟩
  · exact ⟨true, hok.reallocs⟩

/-- If nothing failed up to and including this append, then this `realloc`
    succeeded, and so did the earlier ones. -/
theorem allSucceed_append (h : (b.append rt append appendLen).AllSucceed) :
    b.AllSucceed ∧ ∃ stale, ConcatSucceeds rt b.result append b.len appendLen b.mem
      (strconcat rt b.result append b.len appendLen b.mem) stale := by
  constructor
  · obtain ⟨ok, hlog⟩ : ∃ ok, (b.append rt append appendLen).mem.reallocs
        = ok :: b.mem.reallocs := append_reallocs
    intro ok' hmem
    refine h ok' ?_
    rw [hlog]
    exact List.mem_cons_of_mem _ hmem
  · rcases strconcat_cases rt b.result append b.len appendLen b.mem with
      hfail | hok
    · have hmem : false ∈ (b.append rt append appendLen).mem.reallocs := by
        rw [append_mem, hfail.reallocs]
        exact List.mem_cons_self
      exact nomatch h false hmem
    · exact hok

/-- A successful append has stored its terminator past the block. -/
theorem append_store_outside (h : (b.append rt append appendLen).AllSucceed) :
    ∃ st ∈ (b.append rt append appendLen).mem.stores, ¬ st.InBounds := by
  obtain ⟨-, stale, hok⟩ := allSucceed_append h
  refine ⟨terminatorStore b.len appendLen, ?_, terminatorStore_outside _ _⟩
  rw [append_mem, hok.stores]
  exact List.mem_cons_self

/-- **STEP**: a successful append of a NUL-free chunk extends the text. -/
theorem holds_append {p : Nat} {blk : Block UInt8} {text : List UInt8}
    {stale : Nat → UInt8} (h : Holds b p blk text)
    (hok : ConcatSucceeds rt b.result append b.len appendLen b.mem
      (strconcat rt b.result append b.len appendLen b.mem) stale)
    (hnul : ∀ k, k < appendLen.toNat → append k ≠ 0)
    (hfit : text.length + appendLen.toNat + 1 < 2 ^ 64) :
    Holds (b.append rt append appendLen) b.mem.heap.next
      (concatBlock blk stale append b.len appendLen)
      (text ++ cells append appendLen.toNat) := by
  have hlen := h.len
  have hsum : (b.len + appendLen).toNat = text.length + appendLen.toNat := by
    rw [UInt64.toNat_add, hlen]
    exact Nat.mod_eq_of_lt (by omega)
  have hsize : (b.len + appendLen + 1).toNat = text.length + appendLen.toNat + 1 := by
    rw [concatSize_eq (hlen.symm ▸ hfit), hlen]
  have hlive := hok.live
  rw [h.blockAt] at hlive
  refine ⟨hok.result, hlive, ?_, ?_, ?_, ?_⟩
  · simpa using hsize
  · simpa using hok.small
  · rw [append_len, hsum, List.length_append, length_cells]
  · have hold : b.len.toNat ≤ blk.size := by
      have := h.size
      omega
    have hcells : cells (concatBlock blk stale append b.len appendLen).cell
        (b.len.toNat + appendLen.toNat) = _ := cells_concatBlock hold hnul
    rw [hlen, h.text] at hcells
    simpa using hcells

/-- While no `realloc` has failed, the result block holds the text. -/
def Accumulated (b : Builder) (text : List UInt8) : Prop :=
  b.AllSucceed → ∃ p blk, Holds b p blk text

/-- Chunks below `PTRDIFF_MAX` bytes never make the size wrap. -/
theorem accumulated_append {text : List UInt8} (h : Accumulated b text)
    (hshort : appendLen.toNat ≤ ptrdiffMax)
    (hnul : ∀ k, k < appendLen.toNat → append k ≠ 0) :
    Accumulated (b.append rt append appendLen)
      (text ++ cells append appendLen.toNat) := by
  intro hall
  obtain ⟨hprev, stale, hok⟩ := allSucceed_append hall
  obtain ⟨p, blk, hholds⟩ := h hprev
  have hsize := hholds.size
  have hsmall := hholds.small
  rw [ptrdiffMax] at hsmall hshort
  exact ⟨_, _, holds_append hholds hok hnul (by omega)⟩

/-- The allocator grants its first `n` calls, and the text with its NUL is an
    object of allowed size. -/
def Granted (rt : Allocator) (n : Nat) (text : List UInt8) : Prop :=
  (∀ i, i < n → rt i ≠ none) ∧ text.length + 1 ≤ ptrdiffMax

/-- After `n` calls of `realloc`: none of them has failed exactly when all are
    granted, and then the result block holds the text. -/
structure Appended (rt : Allocator) (b : Builder) (n : Nat) (text : List UInt8) : Prop where
  calls : b.mem.reallocs.length = n
  allSucceed_iff : b.AllSucceed ↔ Granted rt n text
  accumulated : Accumulated b text

theorem appended_start (rt : Allocator) : Appended rt (Builder.start true) 0 [] where
  calls := rfl
  allSucceed_iff := by
    constructor
    · rintro -
      exact ⟨fun i hi => absurd hi (Nat.not_lt_zero i), by decide⟩
    · rintro - ok hok
      exact nomatch hok
  accumulated := fun _ => ⟨_, _, holds_start⟩

/-- **STEP**: one more call, for a chunk below `PTRDIFF_MAX` bytes. -/
theorem appended_append {n : Nat} {text : List UInt8} (h : Appended rt b n text)
    (hshort : appendLen.toNat ≤ ptrdiffMax)
    (hnul : ∀ k, k < appendLen.toNat → append k ≠ 0) :
    Appended rt (b.append rt append appendLen) (n + 1)
      (text ++ cells append appendLen.toNat) where
  calls := by
    obtain ⟨ok, hlog⟩ : ∃ ok, (b.append rt append appendLen).mem.reallocs
        = ok :: b.mem.reallocs := append_reallocs
    rw [hlog, List.length_cons, h.calls]
  accumulated := accumulated_append h.accumulated hshort hnul
  allSucceed_iff := by
    constructor
    · intro hall
      obtain ⟨hprev, stale, hok⟩ := allSucceed_append hall
      obtain ⟨p, blk, hholds⟩ := accumulated_append h.accumulated hshort hnul hall
      refine ⟨?_, ?_⟩
      · intro i hi
        -- the earlier calls, or the one just made
        rcases Nat.lt_succ_iff_lt_or_eq.mp hi with hlt | heq
        · exact (h.allSucceed_iff.mp hprev).1 i hlt
        · rw [heq, ← h.calls, hok.granted]
          exact Option.some_ne_none stale
      · rw [← hholds.size]
        exact hholds.small
    · rintro ⟨hgranted, hsmall⟩
      rw [List.length_append, length_cells] at hsmall
      have hprev : b.AllSucceed := h.allSucceed_iff.mpr
        ⟨fun i hi => hgranted i (Nat.lt_succ_of_lt hi), by omega⟩
      obtain ⟨p, blk, hholds⟩ := h.accumulated hprev
      obtain ⟨stale, hrt⟩ := Option.ne_none_iff_exists'.mp (hgranted n (Nat.lt_succ_self n))
      -- even if the sum wrapped, the size asked for would be small enough
      have hsize : (b.len + appendLen + 1).toNat ≤ ptrdiffMax := by
        have hwrap := concatSize_le b.len appendLen
        rw [hholds.len] at hwrap
        omega
      rw [← h.calls] at hrt
      have hok : ConcatSucceeds rt b.result append b.len appendLen b.mem
        (strconcat rt b.result append b.len appendLen b.mem) stale :=
        strconcat_of_granted hrt hsize
      intro ok hmem
      rw [append_mem, hok.reallocs] at hmem
      rcases List.mem_cons.mp hmem with hnew | hold
      · exact hnew
      · exact hprev ok hold

/-- When the new size wraps, the block is too small for the text. -/
theorem append_not_readString_of_wrap {text : List UInt8}
    (hall : (b.append rt append appendLen).AllSucceed)
    (hwrap : ¬ text.length + appendLen.toNat + 1 < 2 ^ 64) :
    (b.append rt append appendLen).readString
      ≠ some (text ++ cells append appendLen.toNat) := by
  obtain ⟨-, stale, hok⟩ := allSucceed_append hall
  have hresult : (b.append rt append appendLen).readString
      = cString (cells (concatBlock (blockAt b.mem.heap b.result) stale append
          b.len appendLen).cell (b.len + appendLen + 1).toNat) := by
    rw [Builder.readString, append_result, append_mem, hok.result, Option.bind_some,
      hok.live, Option.bind_some, concatBlock_size]
  rw [hresult]
  intro hread
  have hlt := (cString_cells_iff.mp hread).1
  have hbound := (b.len + appendLen + 1).toNat_lt
  rw [List.length_append, length_cells] at hlt
  omega

/-- After an append to a terminated text, the terminator is in place exactly
    when the length fits and the last byte `realloc` added is zero. -/
theorem append_readString_iff {p : Nat} {blk : Block UInt8} {text : List UInt8}
    (h : Holds b p blk text) (hend : blk.cell text.length = 0)
    (htext : (0 : UInt8) ∉ text)
    (hnul : ∀ k, k < appendLen.toNat → append k ≠ 0)
    (hall : (b.append rt append appendLen).AllSucceed) :
    (b.append rt append appendLen).readString
        = some (text ++ cells append appendLen.toNat)
      ↔ text.length + appendLen.toNat + 1 < 2 ^ 64
        ∧ (0 < appendLen.toNat → ∀ stale, rt b.mem.reallocs.length = some stale →
            stale (text.length + appendLen.toNat) = 0) := by
  by_cases hfit : text.length + appendLen.toNat + 1 < 2 ^ 64
  swap
  · have hwrap := append_not_readString_of_wrap hall hfit
    exact ⟨fun hread => absurd hread hwrap, fun hcond => absurd hcond.1 hfit⟩
  obtain ⟨-, stale, hok⟩ := allSucceed_append hall
  have hholds := holds_append h hok hnul hfit
  have hnew : (0 : UInt8) ∉ text ++ cells append appendLen.toNat := by
    rw [List.mem_append, mem_cells]
    rintro (hmem | ⟨k, hk, hzero⟩)
    · exact htext hmem
    · exact hnul k hk hzero
  have hcell : (concatBlock blk stale append b.len appendLen).cell
      (b.len.toNat + appendLen.toNat) = _ := concatBlock_cell_end
  have hsize := h.size
  rw [h.len] at hcell
  rw [hholds.readString_iff hnew, List.length_append, length_cells, hcell]
  by_cases hzero : appendLen.toNat = 0
  · -- nothing is appended, and the old terminator still stands
    rw [if_pos (by omega), hzero, Nat.add_zero]
    exact ⟨fun _ => ⟨by omega, fun hpos => absurd hpos (by omega)⟩, fun _ => hend⟩
  · -- the byte is new, so it is the one `realloc` left
    rw [if_neg (by omega)]
    constructor
    · intro hstale
      refine ⟨hfit, ?_⟩
      intro _ stale' hrt
      rw [← Option.some.inj (hok.granted.symm.trans hrt)]
      exact hstale
    · rintro ⟨_, hstale⟩
      exact hstale (by omega) stale hok.granted

end Append

/-! ## Sequences of chunks -/

/-- A byte string of its stated length without NUL bytes, and whatever
    follows it in memory. -/
structure Chunk where
  append : Nat → UInt8
  appendLen : UInt64
  noNul : ∀ k, k < appendLen.toNat → append k ≠ 0

def Chunk.text (c : Chunk) : List UInt8 := cells c.append c.appendLen.toNat

/-- The concatenation of some chunks. -/
def textOf (cs : List Chunk) : List UInt8 := cs.flatMap Chunk.text

/-- Append the chunks one after the other, starting from the zeroed byte. -/
def build (rt : Allocator) (cs : List Chunk) : Builder :=
  cs.foldl (fun b c => b.append rt c.append c.appendLen) (Builder.start true)

/-- After every append, the block read as a C string is the concatenation of
    the chunks so far. -/
def ReadsBack (rt : Allocator) (cs : List Chunk) : Prop :=
  ∀ pre, pre <+: cs → (build rt pre).readString = some (textOf pre)

/-- Appending `c` after `pre`: the new length fits 64 bits, and if the text
    grows, `realloc` leaves a zero byte right behind it. -/
def StaleZeroAt (rt : Allocator) (pre : List Chunk) (c : Chunk) : Prop :=
  (textOf pre).length + c.appendLen.toNat + 1 < 2 ^ 64
    ∧ (0 < c.appendLen.toNat → ∀ stale, rt pre.length = some stale →
        stale ((textOf pre).length + c.appendLen.toNat) = 0)

/-- Every append of the sequence is lucky in that way. -/
def StaleZero (rt : Allocator) (cs : List Chunk) : Prop :=
  ∀ pre c, pre ++ [c] <+: cs → StaleZeroAt rt pre c

/-- The last chunk is appended last. -/
theorem build_concat (rt : Allocator) (cs : List Chunk) (c : Chunk) :
    build rt (cs ++ [c]) = (build rt cs).append rt c.append c.appendLen := by
  rw [build, List.foldl_append]
  rfl

/-- Its text comes last. -/
theorem textOf_concat (cs : List Chunk) (c : Chunk) :
    textOf (cs ++ [c]) = textOf cs ++ c.text := by
  simp [textOf]

/-- No chunk brings a NUL with it. -/
theorem zero_notMem_textOf (cs : List Chunk) : (0 : UInt8) ∉ textOf cs := by
  intro hmem
  obtain ⟨c, _, hc⟩ := List.mem_flatMap.mp hmem
  obtain ⟨k, hk, hzero⟩ := mem_cells.mp hc
  exact c.noNul k hk hzero

/-- One `realloc` a chunk. -/
theorem length_reallocs_build (rt : Allocator) (cs : List Chunk) :
    (build rt cs).mem.reallocs.length = cs.length := by
  induction cs using List.reverseRecOn with
  | nil => rfl
  | append_singleton cs c ih =>
      obtain ⟨ok, hlog⟩ : ∃ ok, ((build rt cs).append rt c.append c.appendLen).mem.reallocs
          = ok :: (build rt cs).mem.reallocs := append_reallocs
      rw [build_concat, hlog, List.length_cons, ih, List.length_append]
      rfl

/-- Reading back is required after every append, the last one included, -/
theorem readsBack_concat (rt : Allocator) (cs : List Chunk) (c : Chunk) :
    ReadsBack rt (cs ++ [c]) ↔ ReadsBack rt cs
      ∧ (build rt (cs ++ [c])).readString = some (textOf (cs ++ [c])) := by
  constructor
  · intro h
    exact ⟨fun pre hpre => h pre (hpre.trans (List.prefix_append _ _)),
      h _ (List.prefix_refl _)⟩
  · rintro ⟨hcs, hlast⟩ pre hpre
    rcases List.prefix_concat_iff.mp hpre with heq | hlt
    · rw [heq]
      exact hlast
    · exact hcs pre hlt

/-- and so is a zero byte left by `realloc`. -/
theorem staleZero_concat (rt : Allocator) (cs : List Chunk) (c : Chunk) :
    StaleZero rt (cs ++ [c]) ↔ StaleZero rt cs ∧ StaleZeroAt rt cs c := by
  constructor
  · intro h
    exact ⟨fun pre d hpre => h pre d (hpre.trans (List.prefix_append _ _)),
      h cs c (List.prefix_refl _)⟩
  · rintro ⟨hcs, hlast⟩ pre d hpre
    rcases List.prefix_concat_iff.mp hpre with heq | hlt
    · obtain ⟨hpre, hd⟩ := List.append_inj' heq rfl
      rw [hpre, (List.cons.inj hd).1]
      exact hlast
    · exact hcs pre d hlt

/-- **INVARIANT** of a lucky sequence: the block holds the text, terminated. -/
theorem holds_build {rt : Allocator} (cs : List Chunk) :
    (build rt cs).AllSucceed → StaleZero rt cs →
      ∃ p blk, Holds (build rt cs) p blk (textOf cs)
        ∧ blk.cell (textOf cs).length = 0 := by
  induction cs using List.reverseRecOn with
  | nil => intro _ _; exact ⟨0, _, holds_start, rfl⟩
  | append_singleton cs c ih =>
      intro hall hstale
      obtain ⟨hcs, hc⟩ := (staleZero_concat rt cs c).mp hstale
      rw [build_concat] at hall ⊢
      obtain ⟨hprev, stale, hok⟩ := allSucceed_append hall
      obtain ⟨p, blk, hholds, hend⟩ := ih hprev hcs
      have hnew := holds_append hholds hok c.noNul hc.1
      rw [← Chunk.text, ← textOf_concat] at hnew
      refine ⟨_, _, hnew, ?_⟩
      refine (hnew.readString_iff (zero_notMem_textOf _)).mp ?_
      rw [textOf_concat]
      refine (append_readString_iff hholds hend (zero_notMem_textOf cs) c.noNul hall).mpr ?_
      rw [length_reallocs_build]
      exact hc

/-- **REPEATED `strconcat`**: for every sequence of chunks and every content
    `realloc` leaves behind, when no `realloc` fails the block reads back as
    the text so far after every append if and only if `realloc` itself put a
    zero byte where each terminator belongs. -/
theorem readsBack_iff {rt : Allocator} (cs : List Chunk) :
    (build rt cs).AllSucceed → (ReadsBack rt cs ↔ StaleZero rt cs) := by
  induction cs using List.reverseRecOn with
  | nil =>
      intro _
      constructor
      · intro _ pre c hpre
        exact absurd (List.prefix_nil.mp hpre) (by simp)
      · intro _ pre hpre
        rw [List.prefix_nil.mp hpre]
        rfl
  | append_singleton cs c ih =>
      intro hall
      rw [build_concat] at hall
      have hprev := (allSucceed_append hall).1
      rw [readsBack_concat, staleZero_concat, ih hprev, build_concat, textOf_concat]
      refine and_congr_right ?_
      intro hcs
      -- both sides agree on the earlier appends; the last one is the step
      obtain ⟨p, blk, hholds, hend⟩ := holds_build cs hprev hcs
      have hstep := append_readString_iff hholds hend (zero_notMem_textOf cs) c.noNul hall
      rw [length_reallocs_build] at hstep
      exact hstep

/-- The first two calls of the `strconcat` test, where the new memory happens to
    be zero: `hello world`. -/
example :
    (((Builder.start true).append (fun _ => some (fun _ => 0))
        (fun k => [104, 101, 108, 108, 111].getD k 0) 5).append
      (fun _ => some (fun _ => 0))
        (fun k => [32, 119, 111, 114, 108, 100].getD k 0) 6).readString
      = some [104, 101, 108, 108, 111, 32, 119, 111, 114, 108, 100] := by decide

/-- A single byte, as `Matrix_toString` passes its newline. -/
def Chunk.ofByte (x : UInt8) (hx : x ≠ 0) : Chunk := ⟨fun _ => x, 1, fun _ _ => hx⟩

/-- `h` and `i`, one after the other, where the new memory happens to be zero. -/
theorem readsBack_iff_twoChunks :
    (build (fun _ => some (fun _ => 0))
        [Chunk.ofByte 104 (by decide), Chunk.ofByte 105 (by decide)]).AllSucceed
      ∧ (ReadsBack (fun _ => some (fun _ => 0))
          [Chunk.ofByte 104 (by decide), Chunk.ofByte 105 (by decide)]
        ↔ StaleZero (fun _ => some (fun _ => 0))
          [Chunk.ofByte 104 (by decide), Chunk.ofByte 105 (by decide)]) :=
  ⟨by decide, readsBack_iff _ (by decide)⟩

/-- The letter `h` appended to the empty string, where `realloc` leaves an `X`
    in the new byte: the block reads `hX` and has no terminator. -/
theorem readsBack_fails_on_stale_byte :
    ¬ ∀ (rt : Allocator) (cs : List Chunk), (build rt cs).AllSucceed → ReadsBack rt cs := by
  intro h
  have hread := h (fun _ => some (fun _ => 88)) [Chunk.ofByte 104 (by decide)] (by decide)
    _ (List.prefix_refl _)
  exact absurd hread (by decide)

end CPetStringBuilder
