import CPet.CStringProofs
import Mathlib.Tactic.Linarith

/-! # `strconcat`

    `strconcat(dst, append, dstLen, appendLen)` reallocates `dst` to
    `dstLen + appendLen + 1` bytes, copies `appendLen` bytes to offset
    `dstLen` and stores a terminator at offset `dstLen + appendLen + 1`.  The
    last offset is one past the new block, so the byte at
    `dstLen + appendLen`, where the C string should end, is never written.

    The allocator is a parameter: for every `realloc` call it says whether the
    call fails, and otherwise what the newly grown bytes hold.  It fails above
    `PTRDIFF_MAX` bytes, as the library documents. -/

namespace CPetStrconcat

open CPetMemory CPetCString

/-! ## The memory of the string code -/

/-- A byte stored into a heap block: the size of the block and the offset. -/
structure Store where
  size : Nat
  offset : Nat

/-- The store lies inside its block. -/
def Store.InBounds (st : Store) : Prop := st.offset < st.size

instance (st : Store) : Decidable st.InBounds :=
  inferInstanceAs (Decidable (_ < _))

/-- The heap, the stores made so far and the results of the `realloc` calls
    so far (both latest first), and the text on stderr. -/
structure StrMem where
  heap : Heap (Block UInt8)
  stores : List Store
  reallocs : List Bool
  stderr : String

/-- What the allocator does at its `n`-th `realloc` call: fail, or succeed
    leaving these bytes in the part that is new. -/
abbrev Allocator := Nat → Option (Nat → UInt8)

/-- `PTRDIFF_MAX`, above which no allocation succeeds. -/
def ptrdiffMax : Nat := 2 ^ 63 - 1

/-- A C string: a text without NULs that fits an object with its terminator. -/
structure CStr where
  text : List UInt8
  nulFree : (0 : UInt8) ∉ text
  small : text.length < ptrdiffMax

/-- The empty string. -/
def CStr.empty : CStr := ⟨[], List.not_mem_nil, by decide⟩

/-- The string stands at a pointer. -/
structure CStr.At (s : CStr) (f : Nat → UInt8) : Prop where
  text : cells f s.text.length = s.text
  terminated : f s.text.length = 0

/-- `strlen(s)`. -/
def CStr.strlen (s : CStr) : UInt64 := UInt64.ofNat s.text.length

@[simp] theorem CStr.toNat_strlen (s : CStr) : s.strlen.toNat = s.text.length :=
  UInt64.toNat_ofNat_of_lt' (Nat.lt_trans s.small (by decide))

/-- There is no NUL in front of the terminator. -/
theorem CStr.At.ne_zero {s : CStr} {f : Nat → UInt8} (h : s.At f) :
    ∀ k, k < s.text.length → f k ≠ 0 := by
  intro k hk hzero
  refine s.nulFree ?_
  rw [← h.text]
  exact mem_cells.mpr ⟨k, hk, hzero⟩

/-- The object behind a pointer that may be `NULL`. -/
def blockAt (h : Heap (Block UInt8)) (p : Option Nat) : Block UInt8 :=
  (p.bind h.live).getD ⟨0, fun _ => 0⟩

/-- A live pointer leads to its block. -/
theorem blockAt_of_live {h : Heap (Block UInt8)} {p : Nat} {b : Block UInt8}
    (hlive : h.live p = some b) : blockAt h (some p) = b := by
  rw [blockAt, Option.bind_some, hlive]
  rfl

/-- Release what a pointer that may be `NULL` points to. -/
def freePtr (h : Heap (Block UInt8)) : Option Nat → Heap (Block UInt8)
  | none => h
  | some p => h.free p

/-- `realloc(p, n)`; the block always moves. -/
def realloc (rt : Allocator) (p : Option Nat) (n : Nat) (s : StrMem) :
    Option Nat × StrMem :=
  match rt s.reallocs.length with
  -- a failing `realloc` leaves the old block alone
  | none => (none, { s with reallocs := false :: s.reallocs })
  | some stale =>
      if ptrdiffMax < n then (none, { s with reallocs := false :: s.reallocs })
      else
        let (q, heap) := (freePtr s.heap p).alloc
          ((blockAt s.heap p).resize n stale)
        (some q, { s with heap := heap, reallocs := true :: s.reallocs })

/-- Store consecutive bytes into the block at `p`. -/
def storeBytes (p offset : Nat) (bytes : List UInt8) (s : StrMem) : StrMem :=
  { s with
    heap := s.heap.modify p (fun b => b.storeList offset bytes)
    stores := (List.range bytes.length).map
      (fun k : Nat => ⟨(blockAt s.heap (some p)).size, offset + k⟩) ++ s.stores }

/-- `strncpy(p + offset, src, n)`. -/
def strncpy (p offset : Nat) (src : Nat → UInt8) (n : Nat) (s : StrMem) : StrMem :=
  storeBytes p offset (strncpyBytes n src) s

/-- What `%.20s` prints of a pointer: at most 20 bytes, up to a NUL. -/
def shownPrefix (h : Heap (Block UInt8)) : Option Nat → String
  | none => "(null)"
  | some p => String.ofList (((cells (blockAt h (some p)).cell 20).takeWhile
      (fun b => b != 0)).map (fun b => Char.ofNat b.toNat))

/-- `strconcat(dst, append, dstLen, appendLen)`. -/
def strconcat (rt : Allocator) (dst : Option Nat) (append : Nat → UInt8)
    (dstLen appendLen : UInt64) (s : StrMem) : Option Nat × StrMem :=
  match realloc rt dst (dstLen + appendLen + 1).toNat s with
  | (none, s) =>
      (none, { s with
        stderr := s.stderr ++ "Couldn't resize [" ++ shownPrefix s.heap dst ++
          "] from " ++ toString dstLen.toNat ++ " to " ++
          toString (dstLen + appendLen).toNat ++ " characters" })
  | (some dstNew, s) =>
      let s := strncpy dstNew dstLen.toNat append appendLen.toNat s
      -- the offset is the size of the block
      (some dstNew, storeBytes dstNew (dstLen.toNat + appendLen.toNat + 1) [0] s)

/-! ## What one call does -/

@[simp] theorem freePtr_next (h : Heap (Block UInt8)) (p : Option Nat) :
    (freePtr h p).next = h.next := by
  cases p with
  | none => rfl
  | some p => rfl

/-- The bytes are stored into the block, -/
theorem storeBytes_live {s : StrMem} {p : Nat} {b : Block UInt8}
    (h : s.heap.live p = some b) (offset : Nat) (bytes : List UInt8) :
    (storeBytes p offset bytes s).heap.live p = some (b.storeList offset bytes) := by
  simp [storeBytes, h]

/-- and no other block changes. -/
theorem storeBytes_live_of_ne {s : StrMem} {p a : Nat} (h : a ≠ p) (offset : Nat)
    (bytes : List UInt8) :
    (storeBytes p offset bytes s).heap.live a = s.heap.live a :=
  modify_live_of_ne _ _ h

/-- Every byte is logged with the size of the block it goes to. -/
theorem storeBytes_stores {s : StrMem} {p : Nat} {b : Block UInt8}
    (h : s.heap.live p = some b) (offset : Nat) (bytes : List UInt8) :
    (storeBytes p offset bytes s).stores
      = (List.range bytes.length).map (fun k : Nat => ⟨b.size, offset + k⟩)
        ++ s.stores := by
  rw [storeBytes, blockAt_of_live h]

/-- The contents of the block a successful call returns. -/
def concatBlock (old : Block UInt8) (stale : Nat → UInt8) (append : Nat → UInt8)
    (dstLen appendLen : UInt64) : Block UInt8 :=
  ((old.resize (dstLen + appendLen + 1).toNat stale).storeList dstLen.toNat
    (strncpyBytes appendLen.toNat append)).storeList
      (dstLen.toNat + appendLen.toNat + 1) [0]

/-- What a call leaves behind when its `realloc` fails. -/
structure ConcatFails (s : StrMem) (r : Option Nat × StrMem) : Prop where
  result : r.1 = none
  heap : r.2.heap = s.heap
  stores : r.2.stores = s.stores
  reallocs : r.2.reallocs = false :: s.reallocs

/-- What a call leaves behind when its `realloc` succeeds. -/
structure ConcatSucceeds (rt : Allocator) (dst : Option Nat)
    (append : Nat → UInt8) (dstLen appendLen : UInt64) (s : StrMem)
    (r : Option Nat × StrMem) (stale : Nat → UInt8) : Prop where
  granted : rt s.reallocs.length = some stale
  small : (dstLen + appendLen + 1).toNat ≤ ptrdiffMax
  result : r.1 = some s.heap.next
  live : r.2.heap.live s.heap.next
    = some (concatBlock (blockAt s.heap dst) stale append dstLen appendLen)
  others : ∀ a, a ≠ s.heap.next →
    r.2.heap.live a = (freePtr s.heap dst).live a
  reallocs : r.2.reallocs = true :: s.reallocs
  stores : r.2.stores
    = ⟨(dstLen + appendLen + 1).toNat, dstLen.toNat + appendLen.toNat + 1⟩
      :: ((List.range appendLen.toNat).map
          (fun k : Nat => ⟨(dstLen + appendLen + 1).toNat, dstLen.toNat + k⟩)
        ++ s.stores)

/-- A refused `realloc` is reported, and nothing is stored. -/
theorem strconcat_of_refused {rt : Allocator} {dst : Option Nat}
    {append : Nat → UInt8} {dstLen appendLen : UInt64} {s : StrMem}
    (h : realloc rt dst (dstLen + appendLen + 1).toNat s
      = (none, { s with reallocs := false :: s.reallocs })) :
    ConcatFails s (strconcat rt dst append dstLen appendLen s) := by
  rw [strconcat, h]
  exact ⟨rfl, rfl, rfl, rfl⟩

/-- A granted one is followed by the copy and the terminator. -/
theorem strconcat_of_granted {rt : Allocator} {dst : Option Nat}
    {append : Nat → UInt8} {dstLen appendLen : UInt64} {s : StrMem}
    {stale : Nat → UInt8} (hrt : rt s.reallocs.length = some stale)
    (hsmall : (dstLen + appendLen + 1).toNat ≤ ptrdiffMax) :
    ConcatSucceeds rt dst append dstLen appendLen s
      (strconcat rt dst append dstLen appendLen s) stale := by
  -- the state between the `realloc` and the stores
  let grown := (blockAt s.heap dst).resize (dstLen + appendLen + 1).toNat stale
  let s₁ : StrMem := { s with
    heap := ((freePtr s.heap dst).alloc grown).2
    reallocs := true :: s.reallocs }
  have hrealloc : realloc rt dst (dstLen + appendLen + 1).toNat s
      = (some s.heap.next, s₁) := by
    rw [realloc, hrt]
    simp only [if_neg (Nat.not_lt.mpr hsmall)]
    rw [← freePtr_next s.heap dst]
    rfl
  have hcall : strconcat rt dst append dstLen appendLen s
      = (some s.heap.next, storeBytes s.heap.next
          (dstLen.toNat + appendLen.toNat + 1) [0]
          (strncpy s.heap.next dstLen.toNat append appendLen.toNat s₁)) := by
    rw [strconcat, hrealloc]
  have hlive : s₁.heap.live s.heap.next = some grown := by
    rw [← freePtr_next s.heap dst]
    exact alloc_live_self _ _
  have hcopied := storeBytes_live hlive dstLen.toNat
    (strncpyBytes appendLen.toNat append)
  rw [hcall]
  refine ⟨hrt, hsmall, rfl, storeBytes_live hcopied _ _, ?_, rfl, ?_⟩
  · intro a ha
    rw [strncpy, storeBytes_live_of_ne ha, storeBytes_live_of_ne ha]
    refine alloc_live_of_ne _ _ ?_
    rw [freePtr_next]
    exact ha
  · rw [strncpy, storeBytes_stores hcopied, storeBytes_stores hlive]
    simp [grown, s₁]

/-- **INVERSION**: every call either fails and changes nothing but the log, or
    returns the fresh block `concatBlock` in place of the old one. -/
theorem strconcat_cases (rt : Allocator) (dst : Option Nat) (append : Nat → UInt8)
    (dstLen appendLen : UInt64) (s : StrMem) :
    ConcatFails s (strconcat rt dst append dstLen appendLen s)
      ∨ ∃ stale, ConcatSucceeds rt dst append dstLen appendLen s
          (strconcat rt dst append dstLen appendLen s) stale := by
  cases hrt : rt s.reallocs.length with
  | none =>
      refine Or.inl (strconcat_of_refused ?_)
      rw [realloc, hrt]
  | some stale =>
      by_cases hbig : ptrdiffMax < (dstLen + appendLen + 1).toNat
      · refine Or.inl (strconcat_of_refused ?_)
        rw [realloc, hrt]
        exact if_pos hbig
      · exact Or.inr ⟨stale, strconcat_of_granted hrt (Nat.le_of_not_lt hbig)⟩

/-! ## Where the bytes go -/

/-- Every store made between two states lies inside its block. -/
def WritesInBounds (s s' : StrMem) : Prop :=
  ∃ written, s'.stores = written ++ s.stores ∧ ∀ st ∈ written, st.InBounds

/-- The terminator of a successful call. -/
def terminatorStore (dstLen appendLen : UInt64) : Store :=
  ⟨(dstLen + appendLen + 1).toNat, dstLen.toNat + appendLen.toNat + 1⟩

/-- The size asked for may have wrapped, and then it is smaller. -/
theorem concatSize_le (dstLen appendLen : UInt64) :
    (dstLen + appendLen + 1).toNat ≤ dstLen.toNat + appendLen.toNat + 1 := by
  rw [UInt64.toNat_add, UInt64.toNat_add, Nat.mod_add_mod]
  exact Nat.mod_le _ _

/-- Below `2^64` it has not wrapped. -/
theorem concatSize_eq {dstLen appendLen : UInt64}
    (hfit : dstLen.toNat + appendLen.toNat + 1 < 2 ^ 64) :
    (dstLen + appendLen + 1).toNat = dstLen.toNat + appendLen.toNat + 1 := by
  rw [UInt64.toNat_add, UInt64.toNat_add, Nat.mod_add_mod]
  exact Nat.mod_eq_of_lt hfit

/-- It is stored past the block, whether or not the size has wrapped. -/
theorem terminatorStore_outside (dstLen appendLen : UInt64) :
    ¬ (terminatorStore dstLen appendLen).InBounds :=
  Nat.not_lt.mpr (concatSize_le dstLen appendLen)

/-- **NO SUCCESSFUL CALL** stays inside the block it has allocated. -/
theorem strconcat_outside {rt : Allocator} {dst : Option Nat} {append : Nat → UInt8}
    {dstLen appendLen : UInt64} {s : StrMem}
    (h : (strconcat rt dst append dstLen appendLen s).1 ≠ none) :
    ¬ WritesInBounds s (strconcat rt dst append dstLen appendLen s).2 := by
  rintro ⟨written, hwritten, hin⟩
  rcases strconcat_cases rt dst append dstLen appendLen s with hfail | ⟨stale, hok⟩
  · exact h hfail.result
  · -- the terminator is the latest store, and it is among those written
    rw [hok.stores, ← List.cons_append] at hwritten
    have hlist := List.append_cancel_right hwritten
    refine terminatorStore_outside dstLen appendLen (hin _ ?_)
    rw [← hlist]
    exact List.mem_cons_self

/-- The copy is not at fault: where the size does not wrap, the terminator is
    the only store outside. -/
theorem strconcat_copy_inside {rt : Allocator} {dst : Option Nat} {append : Nat → UInt8}
    {dstLen appendLen : UInt64} {s : StrMem}
    (hfit : dstLen.toNat + appendLen.toNat + 1 < 2 ^ 64) :
    ∀ st ∈ (strconcat rt dst append dstLen appendLen s).2.stores,
      st ∈ s.stores ∨ st = terminatorStore dstLen appendLen ∨ st.InBounds := by
  intro st hst
  rcases strconcat_cases rt dst append dstLen appendLen s with hfail | ⟨stale, hok⟩
  · rw [hfail.stores] at hst
    exact Or.inl hst
  rw [hok.stores, List.mem_cons, List.mem_append, List.mem_map] at hst
  rcases hst with hterm | ⟨k, hk, hcopy⟩ | hold
  · exact Or.inr (Or.inl hterm)
  · refine Or.inr (Or.inr ?_)
    have hk' := List.mem_range.mp hk
    rw [← hcopy]
    show dstLen.toNat + k < (dstLen + appendLen + 1).toNat
    rw [concatSize_eq hfit]
    omega
  · exact Or.inl hold

/-! ## What the returned block holds -/

section Contents

variable {old : Block UInt8} {stale append : Nat → UInt8} {dstLen appendLen : UInt64}

/-- The block is as large as was asked for. -/
@[simp] theorem concatBlock_size :
    (concatBlock old stale append dstLen appendLen).size
      = (dstLen + appendLen + 1).toNat := by
  simp [concatBlock]

/-- The old text is kept. -/
theorem concatBlock_cell_of_lt {k : Nat} (hold : dstLen.toNat ≤ old.size)
    (hk : k < dstLen.toNat) :
    (concatBlock old stale append dstLen appendLen).cell k = old.cell k := by
  rw [concatBlock, storeList_cell_of_outside _ _ _ _ (Or.inl (by omega)),
    storeList_cell_of_outside _ _ _ _ (Or.inl hk)]
  exact resize_cell_of_lt _ _ _ (by omega)

/-- What `strncpy` copies follows it. -/
theorem cells_copied :
    cells (fun k => (concatBlock old stale append dstLen appendLen).cell (dstLen.toNat + k))
        appendLen.toNat
      = strncpyBytes appendLen.toNat append := by
  refine List.ext_getElem (by simp) ?_
  intro k hk hk'
  have hlt : k < appendLen.toNat := by simpa using hk
  rw [getElem_cells, concatBlock, storeList_cell_of_outside _ _ _ _ (Or.inl (by omega)),
    storeList_cell _ _ _ _ hk']

/-- The byte behind the new text is whatever `realloc` left there. -/
theorem concatBlock_cell_end :
    (concatBlock old stale append dstLen appendLen).cell
        (dstLen.toNat + appendLen.toNat)
      = if dstLen.toNat + appendLen.toNat < old.size
        then old.cell (dstLen.toNat + appendLen.toNat)
        else stale (dstLen.toNat + appendLen.toNat) := by
  have hcopy : dstLen.toNat + (strncpyBytes appendLen.toNat append).length
      ≤ dstLen.toNat + appendLen.toNat := by simp
  rw [concatBlock, storeList_cell_of_outside _ _ _ _ (Or.inl (by omega)),
    storeList_cell_of_outside _ _ _ _ (Or.inr hcopy)]
  rfl

/-- **COPIED**: the block starts with the old text and the one appended. -/
theorem cells_concatBlock (hold : dstLen.toNat ≤ old.size)
    (hnul : ∀ k, k < appendLen.toNat → append k ≠ 0) :
    cells (concatBlock old stale append dstLen appendLen).cell
        (dstLen.toNat + appendLen.toNat)
      = cells old.cell dstLen.toNat ++ cells append appendLen.toNat := by
  rw [cells_add, cells_copied, strncpyBytes_eq_cells _ _ hnul,
    cells_congr (fun k hk => concatBlock_cell_of_lt hold hk)]

end Contents

end CPetStrconcat
