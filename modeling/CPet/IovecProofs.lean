import CPet.RequestProofs
import Mathlib.Data.List.Nodup

/-! # Scattering into iovecs and printing them

    The kernel fills the buffers of an iovec table in order with the bytes it
    has read, and leaves what follows as it was.  Both readers then print every
    buffer at its full length with `output_buf`, and free it.

    What is printed is the gathered contents of the buffers: as long as all
    lengths together, and starting with the bytes read.  So it is exactly the
    bytes read when they fill all buffers, and never otherwise. -/

namespace CPetIovec

open CPetMemory CPetTiling CPetBlockPlan CPetSubmission CPetRequest

/-- The heap, the bytes printed and the addresses freed, in order. -/
structure IoMemory where
  heap : Heap IoObject
  printed : List UInt8
  freed : List Nat

/-- The bytes behind a pointer; only a live buffer has any. -/
def bufferBytes (heap : Heap IoObject) (buf n : Nat) : List UInt8 :=
  match heap.live buf with
  | some (.buffer block) => cells block.cell n
  | _ => []

/-- `output_buf(buf, len)`. -/
def outputBuf (buf : Nat) (len : UInt64) (m : IoMemory) : IoMemory :=
  { m with printed := m.printed ++ bufferBytes m.heap buf len.toNat }

/-- `free(ptr)`. -/
def freeBlock (ptr : Nat) (m : IoMemory) : IoMemory :=
  { m with
    heap := m.heap.free ptr
    freed := m.freed ++ [ptr] }

/-- Print the buffers of a table. -/
def outputIovecs (entries : List IoVec) (m : IoMemory) : IoMemory :=
  entries.foldl (fun m e => outputBuf e.iovBase e.iovLen m) m

/-- Free the buffers of a table. -/
def freeIovecs (entries : List IoVec) (m : IoMemory) : IoMemory :=
  entries.foldl (fun m e => freeBlock e.iovBase m) m

/-- Print and free each buffer of a table before the next. -/
def outputAndFreeIovecs (entries : List IoVec) (m : IoMemory) : IoMemory :=
  entries.foldl
    (fun m e => freeBlock e.iovBase (outputBuf e.iovBase e.iovLen m)) m

/-- The kernel's stores into an object, which reach buffers only. -/
def fill (bytes : List UInt8) : IoObject → IoObject
  | .buffer block => .buffer (block.storeList 0 bytes)
  | object => object

/-- What a vectored read stores: the bytes in order, as far as they go. -/
def scatter : List IoVec → List UInt8 → Heap IoObject → Heap IoObject
  | [], _, heap => heap
  | e :: es, bytes, heap =>
      scatter es (bytes.drop e.iovLen.toNat)
        (heap.modify e.iovBase (fill (bytes.take e.iovLen.toNat)))

/-- The contents of the buffers, one after the other. -/
def gather (heap : Heap IoObject) (entries : List IoVec) : List UInt8 :=
  entries.flatMap fun e => bufferBytes heap e.iovBase e.iovLen.toNat

/-- The number of bytes the buffers hold. -/
def capacity (entries : List IoVec) : Nat :=
  (entries.map fun e => e.iovLen.toNat).sum

/-- The base addresses of a table. -/
def bases (entries : List IoVec) : List Nat := entries.map IoVec.iovBase

/-- Every entry points to a live buffer. -/
def BuffersLive (heap : Heap IoObject) (entries : List IoVec) : Prop :=
  ∀ e ∈ entries, ∃ block, heap.live e.iovBase = some (.buffer block)

/-! ## Shapes

    The kernel changes what buffers contain and nothing else. -/

/-- An object without the contents of a buffer. -/
def shape : IoObject → IoObject
  | .buffer block => .buffer ⟨block.size, fun _ => 0⟩
  | object => object

/-- Filling a buffer keeps its shape. -/
@[simp] theorem shape_fill (bytes : List UInt8) (object : IoObject) :
    shape (fill bytes object) = shape object := by
  cases object with
  | iovecs entries => rfl
  | buffer block => simp only [fill, shape, storeList_size]
  | iovecArray array len => rfl

/-- Two heaps have the same objects at an address, up to buffers' contents. -/
def SameShape (h h' : Heap IoObject) (a : Nat) : Prop :=
  (h'.live a).map shape = (h.live a).map shape

theorem SameShape.of_eq {h h' : Heap IoObject} {a : Nat} (heq : h'.live a = h.live a) :
    SameShape h h' a := congrArg (Option.map shape) heq

/-- Filling a buffer keeps the shapes of all objects. -/
theorem sameShape_modify_fill (heap : Heap IoObject) (base : Nat) (bytes : List UInt8)
    (a : Nat) : SameShape heap (heap.modify base (fill bytes)) a := by
  by_cases ha : a = base
  · rw [SameShape, ha, modify_live_self, Option.map_map]
    exact congrArg (fun f => (heap.live base).map f) (funext (shape_fill bytes))
  · exact SameShape.of_eq (modify_live_of_ne heap _ ha)

/-- **SCATTER KEEPS SHAPES**, at every address. -/
theorem sameShape_scatter (entries : List IoVec) :
    ∀ (bytes : List UInt8) (heap : Heap IoObject) (a : Nat),
      SameShape heap (scatter entries bytes heap) a := by
  induction entries with
  | nil => intro bytes heap a; rfl
  | cons e es ih =>
      intro bytes heap a
      exact (ih _ _ a).trans (sameShape_modify_fill heap _ _ a)

section Shape

variable {h h' : Heap IoObject} {a : Nat}

theorem SameShape.isSome (hs : SameShape h h' a) :
    (h'.live a).isSome = (h.live a).isSome := by
  have hmap := congrArg Option.isSome hs
  rwa [Option.isSome_map, Option.isSome_map] at hmap

/-- What was live still is, with the same shape. -/
theorem SameShape.live (hs : SameShape h h' a) {object : IoObject}
    (hlive : h.live a = some object) :
    ∃ object', h'.live a = some object' ∧ shape object' = shape object := by
  rw [SameShape, hlive] at hs
  exact Option.map_eq_some_iff.mp hs

/-- Only buffers can have changed: a table is the same, -/
theorem SameShape.iovecs (hs : SameShape h h' a) {entries : List IoVec}
    (hlive : h.live a = some (.iovecs entries)) : h'.live a = some (.iovecs entries) := by
  obtain ⟨object, hobject, hshape⟩ := hs.live hlive
  cases object with
  | iovecs entries' => rw [hobject]; exact congrArg some hshape
  | buffer block => exact nomatch hshape
  | iovecArray array len => exact nomatch hshape

/-- a header is the same, -/
theorem SameShape.iovecArray (hs : SameShape h h' a) {array : Nat} {len : UInt64}
    (hlive : h.live a = some (.iovecArray array len)) :
    h'.live a = some (.iovecArray array len) := by
  obtain ⟨object, hobject, hshape⟩ := hs.live hlive
  cases object with
  | iovecs entries => exact nomatch hshape
  | buffer block => exact nomatch hshape
  | iovecArray array' len' => rw [hobject]; exact congrArg some hshape

/-- and a buffer has kept its size. -/
theorem SameShape.buffer (hs : SameShape h h' a) {block : Block UInt8}
    (hlive : h.live a = some (.buffer block)) :
    ∃ block' : Block UInt8, block'.size = block.size
      ∧ h'.live a = some (.buffer block') := by
  obtain ⟨object, hobject, hshape⟩ := hs.live hlive
  cases object with
  | iovecs entries => exact nomatch hshape
  | buffer block' =>
      have hblocks : IoObject.buffer ⟨block'.size, fun _ => 0⟩
          = .buffer ⟨block.size, fun _ => 0⟩ := hshape
      exact ⟨block', (Block.mk.inj (IoObject.buffer.inj hblocks)).1, hobject⟩
  | iovecArray array len => exact nomatch hshape

end Shape

/-- A request stands wherever its blocks have the same shapes. -/
theorem requestAt_congr {h h' : Heap IoObject} {r : Request} (hat : RequestAt h r)
    (hs : ∀ a ∈ r.blocks, SameShape h h' a) : RequestAt h' r where
  header := by
    obtain ⟨len, hlen, hlive⟩ := hat.header
    refine ⟨len, hlen, (hs _ ?_).iovecArray hlive⟩
    exact List.mem_cons_self
  table := (hs _ (List.mem_cons_of_mem _ List.mem_cons_self)).iovecs hat.table
  buffers := by
    intro e he
    obtain ⟨block, hsize, hlive⟩ := hat.buffers e he
    have hmem : e.iovBase ∈ r.blocks :=
      List.mem_cons_of_mem _ (List.mem_cons_of_mem _ (List.mem_map_of_mem he))
    obtain ⟨block', hsize', hlive'⟩ := (hs _ hmem).buffer hlive
    exact ⟨block', hsize'.trans hsize, hlive'⟩
  distinct := hat.distinct

/-! ## What is printed -/

/-- Bytes depend on their buffer only. -/
theorem bufferBytes_congr {h h' : Heap IoObject} {buf : Nat}
    (heq : h'.live buf = h.live buf) (n : Nat) :
    bufferBytes h' buf n = bufferBytes h buf n := by
  rw [bufferBytes, bufferBytes, heq]

/-- What is gathered depends on the buffers of the table only. -/
theorem gather_congr {h h' : Heap IoObject} {entries : List IoVec}
    (heq : ∀ e ∈ entries, h'.live e.iovBase = h.live e.iovBase) :
    gather h' entries = gather h entries := by
  refine List.flatMap_congr ?_
  intro e he
  exact bufferBytes_congr (heq e he) _

theorem gather_cons (heap : Heap IoObject) (e : IoVec) (es : List IoVec) :
    gather heap (e :: es)
      = bufferBytes heap e.iovBase e.iovLen.toNat ++ gather heap es := rfl

/-- Live buffers print as many bytes as their lengths say. -/
theorem length_gather {heap : Heap IoObject} (entries : List IoVec)
    (hlive : BuffersLive heap entries) : (gather heap entries).length = capacity entries := by
  induction entries with
  | nil => rfl
  | cons e es ih =>
      obtain ⟨block, hblock⟩ := hlive e List.mem_cons_self
      have hrest := ih fun e' he' => hlive e' (List.mem_cons_of_mem _ he')
      rw [gather_cons, List.length_append, hrest, bufferBytes, hblock, length_cells]
      rfl

/-- Printing alone leaves memory as it is. -/
theorem outputIovecs_eq (entries : List IoVec) :
    ∀ m : IoMemory, outputIovecs entries m
      = { m with printed := m.printed ++ gather m.heap entries } := by
  induction entries with
  | nil => intro m; simp [outputIovecs, gather]
  | cons e es ih =>
      intro m
      show outputIovecs es (outputBuf e.iovBase e.iovLen m) = _
      rw [ih, gather_cons, ← List.append_assoc]
      rfl

/-- Freeing prints nothing. -/
theorem freeIovecs_eq (entries : List IoVec) :
    ∀ m : IoMemory, freeIovecs entries m
      = { m with
          heap := m.heap.freeAll (bases entries)
          freed := m.freed ++ bases entries } := by
  induction entries with
  | nil => intro m; simp [freeIovecs, bases, Heap.freeAll]
  | cons e es ih =>
      intro m
      show freeIovecs es (freeBlock e.iovBase m) = _
      rw [ih, freeBlock, List.append_assoc]
      rfl

/-- Freeing as one goes does not spoil what is printed later. -/
theorem outputAndFreeIovecs_eq (entries : List IoVec) :
    ∀ m : IoMemory, (bases entries).Nodup → outputAndFreeIovecs entries m
      = { heap := m.heap.freeAll (bases entries)
          printed := m.printed ++ gather m.heap entries
          freed := m.freed ++ bases entries } := by
  induction entries with
  | nil => intro m _; simp [outputAndFreeIovecs, bases, Heap.freeAll, gather]
  | cons e es ih =>
      intro m hnodup
      obtain ⟨hnew, hrest⟩ := List.nodup_cons.mp hnodup
      have hgather : gather (m.heap.free e.iovBase) es = gather m.heap es := by
        refine gather_congr ?_
        intro e' he'
        refine free_live_of_ne _ ?_
        intro heq
        exact hnew (heq ▸ List.mem_map_of_mem he')
      show outputAndFreeIovecs es
        (freeBlock e.iovBase (outputBuf e.iovBase e.iovLen m)) = _
      rw [ih _ hrest, freeBlock, outputBuf, gather_cons, hgather,
        List.append_assoc, List.append_assoc]
      rfl

/-! ## Scatter, then gather -/

/-- A scatter leaves every address outside the table alone. -/
theorem scatter_live_of_not_mem (entries : List IoVec) :
    ∀ (bytes : List UInt8) (heap : Heap IoObject) {a : Nat}, a ∉ bases entries →
      (scatter entries bytes heap).live a = heap.live a := by
  induction entries with
  | nil => intro bytes heap a _; rfl
  | cons e es ih =>
      intro bytes heap a ha
      rw [bases, List.map_cons, List.mem_cons, not_or] at ha
      rw [scatter, ih _ _ ha.2]
      exact modify_live_of_ne heap _ ha.1

/-- Scattering bytes leaves the buffers live. -/
theorem buffersLive_scatter {entries : List IoVec} {heap : Heap IoObject}
    (hlive : BuffersLive heap entries) (es : List IoVec) (bytes : List UInt8) :
    BuffersLive (scatter es bytes heap) entries := by
  intro e he
  obtain ⟨block, hblock⟩ := hlive e he
  obtain ⟨block', -, hblock'⟩ := (sameShape_scatter es bytes heap _).buffer hblock
  exact ⟨block', hblock'⟩

/-- Bytes stored at the start of a block are what it then starts with. -/
theorem prefix_cells_storeList (block : Block UInt8) (bytes : List UInt8) {n : Nat}
    (h : bytes.length ≤ n) : bytes <+: cells (block.storeList 0 bytes).cell n := by
  obtain ⟨m, rfl⟩ := Nat.exists_eq_add_of_le h
  rw [cells_add, cells_storeList]
  exact List.prefix_append _ _

/-- **SCATTER, THEN GATHER**: what is gathered starts with the bytes scattered,
    if the buffers are live, distinct and large enough. -/
theorem prefix_gather_scatter (entries : List IoVec) :
    ∀ (bytes : List UInt8) (heap : Heap IoObject), BuffersLive heap entries →
      (bases entries).Nodup → bytes.length ≤ capacity entries →
        bytes <+: gather (scatter entries bytes heap) entries := by
  induction entries with
  | nil =>
      intro bytes heap _ _ hlen
      rw [List.length_eq_zero_iff.mp (Nat.le_zero.mp hlen)]
      exact List.nil_prefix
  | cons e es ih =>
      intro bytes heap hlive hnodup hlen
      obtain ⟨hnew, hrest⟩ := List.nodup_cons.mp hnodup
      obtain ⟨block, hblock⟩ := hlive e List.mem_cons_self
      have hfirst : bufferBytes (scatter (e :: es) bytes heap) e.iovBase e.iovLen.toNat
          = cells (block.storeList 0 (bytes.take e.iovLen.toNat)).cell e.iovLen.toNat := by
        rw [bufferBytes, scatter, scatter_live_of_not_mem es _ _ hnew, modify_live_self,
          hblock]
        rfl
      have hhead := prefix_cells_storeList block (bytes.take e.iovLen.toNat)
        (List.length_take_le _ _)
      rw [gather_cons, hfirst]
      by_cases hfit : bytes.length ≤ e.iovLen.toNat
      · -- everything is in the first buffer
        rw [List.take_of_length_le hfit] at hhead ⊢
        exact hhead.trans (List.prefix_append _ _)
      · -- the first buffer is full, and the rest is in the others
        have hfull : bytes.take e.iovLen.toNat
            = cells (block.storeList 0 (bytes.take e.iovLen.toNat)).cell
                e.iovLen.toNat := by
          refine hhead.eq_of_length ?_
          rw [List.length_take, length_cells]
          omega
        have hlive' : BuffersLive
            (heap.modify e.iovBase (fill (bytes.take e.iovLen.toNat))) es :=
          buffersLive_scatter (fun e' he' => hlive e' (List.mem_cons_of_mem _ he'))
            [e] bytes
        have hlen' : (bytes.drop e.iovLen.toNat).length ≤ capacity es := by
          rw [capacity, List.map_cons, List.sum_cons, ← capacity] at hlen
          rw [List.length_drop]
          omega
        have htail := ih (bytes.drop e.iovLen.toNat) _ hlive' hrest hlen'
        rw [← hfull]
        have happend := (List.prefix_append_right_inj (bytes.take e.iovLen.toNat)).mpr htail
        rwa [List.take_append_drop] at happend

/-- **EXACTLY THE BYTES READ** are gathered if and only if they fill the
    buffers. -/
theorem gather_scatter_iff {entries : List IoVec} {heap : Heap IoObject}
    (hlive : BuffersLive heap entries) (hnodup : (bases entries).Nodup)
    (bytes : List UInt8) :
    gather (scatter entries bytes heap) entries = bytes
      ↔ bytes.length = capacity entries := by
  have hlen := length_gather entries (buffersLive_scatter hlive entries bytes)
  constructor
  · intro h
    rw [← hlen, h]
  · intro h
    have hstarts := prefix_gather_scatter entries bytes heap hlive hnodup (by omega)
    exact (hstarts.eq_of_length (by rw [hlen, h])).symm

end CPetIovec
