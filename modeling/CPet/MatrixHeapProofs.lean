import CPet.MatrixProofs
import CPet.ObjectPoolProofs

/-! # Matrices in the heap

    A program holds matrices by pointers.  Each constructor allocates an array
    and a header that points to it, and `Matrix_destroy` frees both.
    `Matrix_create` is the exception: it takes an array that exists and copies
    nothing.

    A program that constructs, updates and destroys matrices in any order, and
    uses only those it has and has not destroyed, refines a pool of separate
    tables: an update of one matrix changes no other, everything else in the
    heap is left alone, and a program that destroys all its matrices leaves the
    heap as it was.  Matrices created on one array are another matter: they are
    the same cells, and destroying one leaves the others without any. -/

namespace CPetMatrixHeap

open CPetMemory CPetObjectPool CPetTable CPetMatrix

variable {α : Type}

/-- What the functions allocate: the `Matrix` struct, and the array it points to. -/
inductive MatrixObject (α : Type) where
  | matrix (cols rows : UInt64) (data : Nat)
  | array (block : Block α)

/-- The matrix behind a pointer, and where its array is. -/
def load (heap : Heap (MatrixObject α)) (p : Nat) : Option (Nat × Matrix α) :=
  match heap.live p with
  | some (.matrix cols rows data) =>
      match heap.live data with
      | some (.array block) => some (data, ⟨cols, rows, block⟩)
      | _ => none
  | _ => none

/-- Replace the cells of the matrix behind a pointer; undefined behind a pointer
    to anything else. -/
def store (p : Nat) (f : Matrix α → Matrix α) (heap : Heap (MatrixObject α)) :
    Option (Heap (MatrixObject α)) :=
  (load heap p).map fun m => heap.modify m.1 fun _ => .array (f m.2).data

/-- `Matrix_get(m, row, col)`. -/
def get (p : Nat) (row col : UInt64) (heap : Heap (MatrixObject α)) : Option α :=
  (load heap p).map fun m => matrixGet m.2 row col

/-- `Matrix_set(m, row, col, val)`. -/
def set (p : Nat) (row col : UInt64) (val : α) (heap : Heap (MatrixObject α)) :
    Option (Heap (MatrixObject α)) :=
  store p (fun m => (matrixSet m row col val).2) heap

/-- `Matrix_fill(m, value)`. -/
def fill (p : Nat) (value : α) (heap : Heap (MatrixObject α)) :
    Option (Heap (MatrixObject α)) :=
  store p (fun m => matrixFill m value) heap

/-- `Matrix_create(cols, rows, data)`. -/
def create (env : Env) (cols rows : UInt64) (data : Nat) (heap : Heap (MatrixObject α)) :
    Except Exit (Nat × Heap (MatrixObject α)) := do
  allocateMatrix env
  return heap.alloc (.matrix cols rows data)

/-- `Matrix_zeros(cols, rows)`. -/
def zeros [Zero α] (env : Env) (cols rows : UInt64) (heap : Heap (MatrixObject α)) :
    Except Exit (Nat × Heap (MatrixObject α)) := do
  let array ← allocateZeroArray env cols rows
  let allocated := heap.alloc (.array array)
  create env cols rows allocated.1 allocated.2

/-- `Matrix_copy(cols, rows, data)`. -/
def copy [Zero α] (env : Env) (cols rows : UInt64) (data : Nat → α)
    (heap : Heap (MatrixObject α)) : Except Exit (Nat × Heap (MatrixObject α)) := do
  let m ← zeros env cols rows heap
  let copied := store m.1
    (fun m => { m with data := memcpy m.data data (rows * cols * 8) }) m.2
  return (m.1, copied.getD m.2)

/-- `Matrix_destroy(m)`: undefined unless both blocks live. -/
def destroy (p : Nat) (heap : Heap (MatrixObject α)) : Option (Heap (MatrixObject α)) :=
  (load heap p).map fun m => (heap.free m.1).free p

/-! ## Programs -/

/-- The two constructors that allocate. -/
def constructIn [Zero α] (env : Env) (cols rows : UInt64) (heap : Heap (MatrixObject α)) :
    Source α → Except Exit (Nat × Heap (MatrixObject α))
  | .zeros => zeros env cols rows heap
  | .copy data => copy env cols rows data heap

/-- `Matrix_set` or `Matrix_fill`. -/
def updateAt (p : Nat) (heap : Heap (MatrixObject α)) :
    Update UInt64 α → Option (Heap (MatrixObject α))
  | .set row col value => set p row col value heap
  | .fill value => fill p value heap

/-- A call; matrices are numbered in the order of their construction. -/
inductive Command (α : Type) where
  | construct (env : Env) (cols rows : UInt64) (src : Source α)
  | update (i : Nat) (u : Update UInt64 α)
  | destroy (i : Nat)

/-- The heap, and the pointers returned by the constructors so far. -/
structure State (α : Type) where
  heap : Heap (MatrixObject α)
  vars : List Nat

/-- Why a program stops early. -/
inductive Stop where
  | exit (e : Exit)
  | undefined

/-- One call. -/
def exec [Zero α] (s : State α) : Command α → Except Stop (State α)
  | .construct env cols rows src =>
      match constructIn env cols rows s.heap src with
      | .ok r => .ok ⟨r.2, s.vars ++ [r.1]⟩
      | .error e => .error (.exit e)
  | .update i u =>
      match s.vars[i]?.bind fun p => updateAt p s.heap u with
      | some heap => .ok { s with heap := heap }
      | none => .error .undefined
  | .destroy i =>
      match s.vars[i]?.bind fun p => destroy p s.heap with
      | some heap => .ok { s with heap := heap }
      | none => .error .undefined

/-- A program. -/
def execAll [Zero α] : List (Command α) → State α → Except Stop (State α)
  | [], s => .ok s
  | c :: cs, s =>
      match exec s c with
      | .ok s => execAll cs s
      | .error e => .error e

/-! ## The pool of tables -/

/-- A table and its shape. -/
structure Shaped (α : Type) where
  cols : UInt64
  rows : UInt64
  table : Table UInt64 α

/-- The tables constructed so far, without those destroyed. -/
abbrev Pool (α : Type) := List (Option (Shaped α))

/-- The table after an update. -/
def Shaped.update (m : Shaped α) (u : Update UInt64 α) : Shaped α :=
  { m with table := Update.apply m.table u }

/-- What a call means for the pool. -/
def Command.apply [Zero α] (pool : Pool α) : Command α → Pool α
  | .construct _ cols rows src => pool ++ [some ⟨cols, rows, src.initial cols⟩]
  | .update i u => pool.modify i (Option.map fun m => m.update u)
  | .destroy i => pool.set i none

/-- The call constructs a matrix whose bytes fit, or uses one that there is, at a
    cell that it has. -/
def Command.Legal (pool : Pool α) : Command α → Prop
  | .construct _ cols rows _ => cols.toNat * rows.toNat * sizeofDouble < 2 ^ 64
  | .update i u => ∃ m, pool[i]? = some (some m) ∧ InRange m.cols m.rows u
  | .destroy i => ∃ m, pool[i]? = some (some m)

/-- Every call of the program is legal when it is made. -/
def LegalAll [Zero α] : Pool α → List (Command α) → Prop
  | _, [] => True
  | pool, c :: cs => c.Legal pool ∧ LegalAll (c.apply pool) cs

/-- An allocation of the call fails. -/
def Command.Starved : Command α → Prop
  | .construct env _ _ _ => env.callocOk = false ∨ env.mallocOk = false
  | _ => False

/-- The program has exited with 113, an allocation of one of its calls having failed. -/
def ExitsStarved (cs : List (Command α)) (r : Except Stop (State α)) : Prop :=
  ∃ e, r = .error (.exit e) ∧ e.code = couldNotAllocateError ∧ ∃ c ∈ cs, c.Starved

/-- The pool after a program. -/
def applyAll [Zero α] (cs : List (Command α)) (pool : Pool α) : Pool α :=
  cs.foldl Command.apply pool

/-! ## The constructors -/

section Construct

variable {env : Env} {cols rows : UInt64} {heap : Heap (MatrixObject α)}

/-- An array and a header that points to it, at the next two addresses. -/
def placed (cols rows : UInt64) (block : Block α) (heap : Heap (MatrixObject α)) :
    Nat × Heap (MatrixObject α) :=
  (heap.alloc (.array block)).2.alloc (.matrix cols rows (heap.alloc (.array block)).1)

theorem placed_fst (block : Block α) : (placed cols rows block heap).1 = heap.next + 1 := rfl

/-- A matrix placed in the heap has its header at the address returned, -/
theorem placed_live_ptr (block : Block α) :
    (placed cols rows block heap).2.live (heap.next + 1)
      = some (.matrix cols rows heap.next) := alloc_live_self _ _

/-- its array right below, -/
theorem placed_live_data (block : Block α) :
    (placed cols rows block heap).2.live heap.next = some (.array block) := by
  rw [placed, alloc_live_of_ne _ _ (Nat.ne_of_lt (Nat.lt_succ_self _))]
  exact alloc_live_self _ _

/-- and nothing else has changed. -/
theorem placed_live_of_ne (block : Block α) {a : Nat} (hptr : a ≠ heap.next + 1)
    (hdata : a ≠ heap.next) : (placed cols rows block heap).2.live a = heap.live a := by
  rw [placed, alloc_live_of_ne _ _ hptr, alloc_live_of_ne _ _ hdata]

/-- So loading it gives what was placed. -/
theorem load_placed (block : Block α) :
    load (placed cols rows block heap).2 (heap.next + 1)
      = some (heap.next, ⟨cols, rows, block⟩) := by
  simp only [load, placed_live_ptr, placed_live_data]

/-- Replacing the array that was placed is placing another. -/
theorem placed_modify (block block' : Block α) :
    (placed cols rows block heap).2.modify heap.next (fun _ => .array block')
      = (placed cols rows block' heap).2 := by
  refine heap_ext ?_ rfl
  intro a
  by_cases hdata : a = heap.next
  · rw [hdata, modify_live_self, placed_live_data, placed_live_data]
    rfl
  rw [modify_live_of_ne _ _ hdata]
  by_cases hptr : a = heap.next + 1
  · rw [hptr, placed_live_ptr, placed_live_ptr]
  · rw [placed_live_of_ne block hptr hdata, placed_live_of_ne block' hptr hdata]

variable [Zero α]

/-- `Matrix_zeros` in the heap places the matrix that it makes. -/
theorem zeros_eq :
    zeros env cols rows heap
      = (matrixZeros env cols rows).map fun m => placed cols rows m.data heap := by
  rw [zeros, matrixZeros]
  cases (allocateZeroArray env cols rows : Except Exit (Block α)) with
  | error e => rfl
  | ok array =>
      show create env cols rows heap.next (heap.alloc (.array array)).2
        = (matrixCreate env cols rows array).map _
      rw [create, matrixCreate]
      cases allocateMatrix env with
      | error e => rfl
      | ok _ => rfl

/-- **CONSTRUCTORS**: they place the matrix that is constructed. -/
theorem constructIn_eq (src : Source α) :
    constructIn env cols rows heap src
      = (construct env cols rows src).map fun m => placed cols rows m.data heap := by
  cases src with
  | zeros => exact zeros_eq
  | copy data =>
      show copy env cols rows data heap = (matrixCopy env cols rows data).map _
      rw [copy, matrixCopy, zeros_eq]
      cases hz : (matrixZeros env cols rows : Except Exit (Matrix α)) with
      | error e => rfl
      | ok m =>
          show Except.ok _ = Except.ok _
          simp only [placed_fst, store, load_placed, Option.map_some, Option.getD_some,
            placed_modify]
          rfl

end Construct

/-! ## The program and the pool -/

/-- A matrix the program has: its blocks, and its table. -/
structure Held (α : Type) where
  ptr : Nat
  data : Nat
  shaped : Shaped α

/-- The matrix stands in the heap, and its cells are those of its table. -/
structure Held.Stands (heap : Heap (MatrixObject α)) (h : Held α) : Prop where
  fits : Fits h.shaped.cols h.shaped.rows
  apart : h.data ≠ h.ptr
  header : heap.live h.ptr = some (.matrix h.shaped.cols h.shaped.rows h.data)
  array : ∃ block, heap.live h.data = some (.array block)
    ∧ Represents ⟨h.shaped.cols, h.shaped.rows, block⟩ h.shaped.cols h.shaped.rows
        h.shaped.table

/-- Matrices as objects of two blocks. -/
def matrices (α : Type) : Kind (MatrixObject α) (Held α) where
  blocks h := [h.data, h.ptr]
  ptr := Held.ptr
  ptr_mem := fun _ => List.mem_cons_of_mem _ List.mem_cons_self
  Stands := Held.Stands
  live := by
    intro heap h hst a ha
    obtain ⟨block, hblock, -⟩ := hst.array
    rcases List.mem_cons.mp ha with rfl | ha
    · rw [hblock]
      rfl
    · rw [List.mem_singleton.mp ha, hst.header]
      rfl
  congr := by
    intro heap heap' h hst hsame
    obtain ⟨block, hblock, hrep⟩ := hst.array
    refine ⟨hst.fits, hst.apart, ?_, block, ?_, hrep⟩
    · rw [hsame _ (List.mem_cons_of_mem _ List.mem_cons_self)]
      exact hst.header
    · rw [hsame _ List.mem_cons_self]
      exact hblock

/-- The program has the matrices listed. -/
def Simulates (heap₀ : Heap (MatrixObject α)) (s : State α) (held : List (Option (Held α))) :
    Prop :=
  Keeps (matrices α) heap₀ s.heap s.vars held

/-- The pool of the matrices listed. -/
def poolOf (held : List (Option (Held α))) : Pool α := held.map (Option.map Held.shaped)

section Simulation

variable {heap₀ heap : Heap (MatrixObject α)} {s : State α}
variable {held : List (Option (Held α))} {h : Held α}

theorem simulates_start (heap₀ : Heap (MatrixObject α)) : Simulates heap₀ ⟨heap₀, []⟩ [] :=
  keeps_start heap₀

/-- A matrix in the middle of the list is reached through its variable. -/
theorem Simulates.split {i : Nat} {m : Shaped α} (hsim : Simulates heap₀ s held)
    (hi : (poolOf held)[i]? = some (some m)) :
    ∃ before h after, held = before ++ some h :: after ∧ before.length = i ∧ h.shaped = m
      ∧ s.vars[i]? = some h.ptr := by
  rw [poolOf, List.getElem?_map, Option.map_eq_some_iff] at hi
  obtain ⟨x, hx, hm⟩ := hi
  obtain ⟨h, rfl, hshaped⟩ := Option.map_eq_some_iff.mp hm
  obtain ⟨before, after, hheld, hlength, hvar⟩ := Keeps.split hsim hx
  exact ⟨before, h, after, hheld, hlength, hshaped, hvar⟩

/-- A matrix that stands in the heap is loaded with its shape. -/
theorem load_of_stands (hst : h.Stands heap) {block : Block α}
    (hblock : heap.live h.data = some (.array block)) :
    load heap h.ptr = some (h.data, ⟨h.shaped.cols, h.shaped.rows, block⟩) := by
  simp only [load, hst.header, hblock]

/-- **STEP, CONSTRUCT**. -/
theorem simulates_construct [Zero α] (hsim : Simulates heap₀ s held) {env : Env}
    {cols rows : UInt64} {src : Source α} {m : Matrix α}
    (hbytes : cols.toNat * rows.toNat * sizeofDouble < 2 ^ 64)
    (hm : construct env cols rows src = .ok m) :
    Simulates heap₀ ⟨(placed cols rows m.data s.heap).2, s.vars ++ [s.heap.next + 1]⟩
      (held ++ [some ⟨s.heap.next + 1, s.heap.next, ⟨cols, rows, src.initial cols⟩⟩]) := by
  have hrep := represents_construct hbytes hm
  have hshape : m = ⟨cols, rows, m.data⟩ := by
    rw [← hrep.colsEq, ← hrep.rowsEq]
  have hst : Held.Stands (placed cols rows m.data s.heap).2
      ⟨s.heap.next + 1, s.heap.next, ⟨cols, rows, src.initial cols⟩⟩ :=
    ⟨fits_of_bytes hbytes, Nat.ne_of_lt (Nat.lt_succ_self _), placed_live_ptr _, m.data,
      placed_live_data _, hshape ▸ hrep⟩
  refine Keeps.insert hsim hst ?_ ?_ ?_
  · intro a
    show a ∈ [s.heap.next, s.heap.next + 1] ↔ s.heap.next ≤ a ∧ a < s.heap.next + 1 + 1
    simp only [List.mem_cons, List.not_mem_nil, or_false]
    omega
  · exact List.nodup_cons.mpr ⟨by simp, List.nodup_singleton _⟩
  · intro a ha
    exact placed_live_of_ne _ (by omega) (by omega)

/-- **STEP, STORE**: replacing the cells of one matrix leaves the others as they are. -/
theorem simulates_store {before after : List (Option (Held α))} {block : Block α} {m : Matrix α}
    {table : Table UInt64 α}
    (hsim : Simulates heap₀ s (before ++ some h :: after))
    (hblock : s.heap.live h.data = some (.array block))
    (hrep : Represents m h.shaped.cols h.shaped.rows table) :
    Simulates heap₀ { s with heap := s.heap.modify h.data fun _ => .array m.data }
      (before ++ some { h with shaped := { h.shaped with table := table } } :: after) := by
  have hshape : m = ⟨h.shaped.cols, h.shaped.rows, m.data⟩ := by
    rw [← hrep.colsEq, ← hrep.rowsEq]
  have hst : h.Stands s.heap := Keeps.stands_middle hsim
  refine Keeps.replace hsim ?_ rfl rfl ?_ (Nat.le_refl _)
  · refine ⟨hst.fits, hst.apart, ?_, m.data, ?_, hshape ▸ hrep⟩
    · rw [← hst.header]
      exact modify_live_of_ne _ _ hst.apart.symm
    · show (s.heap.modify h.data _).live h.data = _
      rw [modify_live_self, hblock]
      rfl
  · intro a ha
    refine modify_live_of_ne _ _ ?_
    rintro rfl
    exact ha List.mem_cons_self

/-- **STEP, UPDATE**. -/
theorem simulates_update {before after : List (Option (Held α))} {u : Update UInt64 α}
    (hsim : Simulates heap₀ s (before ++ some h :: after))
    (hu : InRange h.shaped.cols h.shaped.rows u) :
    ∃ heap, updateAt h.ptr s.heap u = some heap
      ∧ Simulates heap₀ { s with heap := heap }
        (before ++ some { h with shaped := h.shaped.update u } :: after) := by
  have hst : h.Stands s.heap := Keeps.stands_middle hsim
  obtain ⟨block, hblock, hrep⟩ := hst.array
  have hload := load_of_stands hst hblock
  cases u with
  | set row col v =>
      have hset := represents_set hst.fits hrep hu.1 hu.2 v
      refine ⟨_, ?_, simulates_store hsim hblock hset⟩
      simp only [updateAt, set, store, hload]
      rfl
  | fill v =>
      have hfill := represents_fill hst.fits hrep v
      refine ⟨_, ?_, simulates_store hsim hblock hfill⟩
      simp only [updateAt, fill, store, hload]
      rfl

/-- **STEP, DESTROY**: both blocks are freed, and nothing else changes. -/
theorem simulates_destroy {before after : List (Option (Held α))}
    (hsim : Simulates heap₀ s (before ++ some h :: after)) :
    ∃ heap, destroy h.ptr s.heap = some heap
      ∧ Simulates heap₀ { s with heap := heap } (before ++ none :: after) := by
  have hst : h.Stands s.heap := Keeps.stands_middle hsim
  obtain ⟨block, hblock, -⟩ := hst.array
  refine ⟨s.heap.freeAll [h.data, h.ptr], ?_, Keeps.remove hsim⟩
  simp only [destroy, load_of_stands hst hblock, Option.map_some]
  rfl

end Simulation

/-! ## Whole programs -/

section Run

variable [Zero α] {heap₀ : Heap (MatrixObject α)} {s : State α}
variable {held : List (Option (Held α))}

/-- A constructor of a matrix whose bytes fit exits only when an allocation fails. -/
theorem construct_error {env : Env} {cols rows : UInt64} {src : Source α} {e : Exit}
    (hbytes : cols.toNat * rows.toNat * sizeofDouble < 2 ^ 64)
    (h : construct env cols rows src = .error e) :
    e.code = couldNotAllocateError ∧ (env.callocOk = false ∨ env.mallocOk = false) := by
  have hzeros : ∀ e', (matrixZeros env cols rows : Except Exit (Matrix α)) = .error e' →
      e'.code = couldNotAllocateError ∧ (env.callocOk = false ∨ env.mallocOk = false) := by
    intro e' he
    rw [matrixZeros, allocateZeroArray] at he
    cases hc : (calloc env.callocOk (rows * cols) : Option (Block α)) with
    | none =>
        rw [hc] at he
        refine ⟨by rw [← Except.error.inj he], Or.inl ?_⟩
        -- the byte size fits, so only memory can be missing
        have hsize : sizeofDouble * (rows * cols).toNat < 2 ^ 64 := by
          have hmul : (rows * cols).toNat ≤ rows.toNat * cols.toNat := by
            rw [UInt64.toNat_mul]
            exact Nat.mod_le _ _
          refine Nat.lt_of_le_of_lt (Nat.mul_le_mul_left sizeofDouble hmul) ?_
          rw [Nat.mul_comm, Nat.mul_comm rows.toNat]
          exact hbytes
        cases hok : env.callocOk with
        | false => rfl
        | true =>
            rw [calloc, if_pos ⟨hok, hsize⟩] at hc
            cases hc
    | some array =>
        rw [hc] at he
        cases hm : env.mallocOk with
        | true =>
            simp [matrixCreate, allocateMatrix, hm, bind, Except.bind, pure, Except.pure] at he
        | false =>
            simp [matrixCreate, allocateMatrix, hm, bind, Except.bind] at he
            rw [← he]
            exact ⟨rfl, Or.inr rfl⟩
  cases src with
  | zeros => exact hzeros e h
  | copy data =>
      rw [construct, matrixCopy] at h
      cases hz : (matrixZeros env cols rows : Except Exit (Matrix α)) with
      | error e' =>
          rw [hz] at h
          rw [← Except.error.inj h]
          exact hzeros e' hz
      | ok m =>
          rw [hz] at h
          cases h

/-- A change at a position is one of the element there. -/
theorem modify_middle {β : Type} (f : β → β) (x : β) (before after : List β) :
    (before ++ x :: after).modify before.length f = before ++ f x :: after := by
  induction before with
  | nil => rfl
  | cons y before ih =>
      rw [List.cons_append, List.length_cons, List.modify_succ_cons, ih]
      rfl

/-- **STEP**: a legal call exits for want of memory, or does to the matrices what it
    means for the pool. -/
theorem simulates_exec (hsim : Simulates heap₀ s held) {c : Command α}
    (hlegal : c.Legal (poolOf held)) :
    (∃ e, exec s c = .error (.exit e) ∧ e.code = couldNotAllocateError ∧ c.Starved)
      ∨ ∃ s' held', exec s c = .ok s' ∧ Simulates heap₀ s' held'
        ∧ poolOf held' = c.apply (poolOf held) := by
  cases c with
  | construct env cols rows src =>
      rw [exec, constructIn_eq]
      cases hm : construct env cols rows src with
      | error e => exact Or.inl ⟨e, rfl, construct_error hlegal hm⟩
      | ok m =>
          refine Or.inr ⟨_, _, rfl, simulates_construct hsim hlegal hm, ?_⟩
          rw [poolOf, List.map_append]
          rfl
  | update i u =>
      obtain ⟨m, hi, hu⟩ := hlegal
      obtain ⟨before, h, after, rfl, rfl, rfl, hvar⟩ := hsim.split hi
      obtain ⟨heap, hupdate, hsim'⟩ := simulates_update hsim hu
      refine Or.inr ⟨_, _, ?_, hsim', ?_⟩
      · simp only [exec, hvar, Option.bind_some, hupdate]
      · show poolOf _ = (poolOf (before ++ some h :: after)).modify before.length _
        rw [poolOf, poolOf, List.map_append, List.map_append,
          ← List.length_map (f := Option.map Held.shaped), List.map_cons, List.map_cons,
          modify_middle]
        rfl
  | destroy i =>
      obtain ⟨m, hi⟩ := hlegal
      obtain ⟨before, h, after, rfl, rfl, rfl, hvar⟩ := hsim.split hi
      obtain ⟨heap, hdestroy, hsim'⟩ := simulates_destroy hsim
      refine Or.inr ⟨_, _, ?_, hsim', ?_⟩
      · simp only [exec, hvar, Option.bind_some, hdestroy]
      · simp [poolOf, Command.apply]

/-- **RUN**: so does a legal program. -/
theorem simulates_execAll (cs : List (Command α)) :
    ∀ {s : State α} {held : List (Option (Held α))}, Simulates heap₀ s held →
      LegalAll (poolOf held) cs →
        ExitsStarved cs (execAll cs s)
          ∨ ∃ s' held', execAll cs s = .ok s' ∧ Simulates heap₀ s' held'
            ∧ poolOf held' = applyAll cs (poolOf held) := by
  induction cs with
  | nil => intro s held hsim _; exact Or.inr ⟨s, held, rfl, hsim, rfl⟩
  | cons c cs ih =>
      intro s held hsim hlegal
      rcases simulates_exec hsim hlegal.1 with
        ⟨e, hexec, hcode, hstarved⟩ | ⟨s', held', hexec, hsim', hpool⟩
      · refine Or.inl ⟨e, ?_, hcode, c, List.mem_cons_self, hstarved⟩
        rw [execAll, hexec]
      · rw [execAll, hexec]
        have hrun := ih hsim' (hpool ▸ hlegal.2)
        rw [hpool] at hrun
        rcases hrun with ⟨e, hexit, hcode, d, hd, hstarved⟩ | hok
        · exact Or.inl ⟨e, hexit, hcode, d, List.mem_cons_of_mem _ hd, hstarved⟩
        · exact Or.inr hok

/-- A legal program from the start. -/
theorem simulates_program (heap₀ : Heap (MatrixObject α)) {cs : List (Command α)}
    (hlegal : LegalAll [] cs) :
    ExitsStarved cs (execAll cs ⟨heap₀, []⟩)
      ∨ ∃ s held, execAll cs ⟨heap₀, []⟩ = .ok s ∧ Simulates heap₀ s held
        ∧ poolOf held = applyAll cs [] :=
  simulates_execAll cs (simulates_start heap₀) hlegal

/-- **A PROGRAM REFINES ITS POOL**: a legal program of any number of matrices either
    exits with 113 because an allocation has failed, or reads every cell of every matrix not yet
    destroyed as its own table has it, whatever was done to the other matrices in
    between; and what was in the heap before is as it was. -/
theorem program_refines_pool (heap₀ : Heap (MatrixObject α)) (cs : List (Command α))
    (hlegal : LegalAll [] cs) :
    ExitsStarved cs (execAll cs ⟨heap₀, []⟩)
      ∨ ∃ s, execAll cs ⟨heap₀, []⟩ = .ok s
        ∧ (∀ (i : Nat) (m : Shaped α), (applyAll cs [])[i]? = some (some m) →
            ∃ p, s.vars[i]? = some p ∧ ∀ r c, r < m.rows → c < m.cols →
              get p r c s.heap = some (m.table r c))
        ∧ ∀ a, (heap₀.live a).isSome → s.heap.live a = heap₀.live a := by
  rcases simulates_program heap₀ hlegal with hexit | ⟨s, held, hexec, hsim, hpool⟩
  · exact Or.inl hexit
  refine Or.inr ⟨s, hexec, ?_, hsim.kept⟩
  intro i m hi
  obtain ⟨before, h, after, rfl, rfl, rfl, hvar⟩ := hsim.split (hpool ▸ hi)
  refine ⟨h.ptr, hvar, ?_⟩
  intro r c hr hc
  have hst : h.Stands s.heap := Keeps.stands_middle hsim
  obtain ⟨block, hblock, hrep⟩ := hst.array
  rw [get, load_of_stands hst hblock, Option.map_some, hrep.cells r c hr hc]

/-- **NOTHING LEAKS**: a legal program that destroys every matrix it constructs
    leaves the heap with the objects it found. -/
theorem program_restores_heap (heap₀ : Heap (MatrixObject α)) (cs : List (Command α))
    (hlegal : LegalAll [] cs) (hdestroyed : ∀ m ∈ applyAll cs ([] : Pool α), m = none) :
    ExitsStarved cs (execAll cs ⟨heap₀, []⟩)
      ∨ ∃ s, execAll cs ⟨heap₀, []⟩ = .ok s ∧ ∀ a, s.heap.live a = heap₀.live a := by
  rcases simulates_program heap₀ hlegal with hexit | ⟨s, held, hexec, hsim, hpool⟩
  · exact Or.inl hexit
  refine Or.inr ⟨s, hexec, (Keeps.restored_iff hsim).mpr ?_⟩
  intro x hx
  have hmem : x.map Held.shaped ∈ applyAll cs ([] : Pool α) := hpool ▸ List.mem_map_of_mem hx
  exact Option.map_eq_none_iff.mp (hdestroyed _ hmem)

end Run

/-- Two matrices, one of them destroyed before the other is changed again. -/
def twoMatrices : List (Command Int) :=
  [.construct ⟨true, true⟩ 2 1 .zeros, .construct ⟨true, true⟩ 1 2 (.copy fun k => k),
    .update 0 (.set 0 1 7), .update 1 (.fill 5), .destroy 0, .update 1 (.set 1 0 9)]

theorem legalAll_twoMatrices : LegalAll [] twoMatrices :=
  ⟨(by decide : 2 * 1 * 8 < 2 ^ 64), (by decide : 1 * 2 * 8 < 2 ^ 64), ⟨_, rfl, by decide⟩,
    ⟨_, rfl, trivial⟩, ⟨_, rfl⟩, ⟨_, rfl, by decide⟩, trivial⟩

/-- Two matrices, one a copy, updated and destroyed. -/
theorem program_refines_pool_twoMatrices :
    ExitsStarved twoMatrices (execAll twoMatrices ⟨Heap.empty, []⟩)
      ∨ ∃ s, execAll twoMatrices ⟨Heap.empty, []⟩ = .ok s
        ∧ (∀ (i : Nat) (m : Shaped Int), (applyAll twoMatrices [])[i]? = some (some m) →
            ∃ p, s.vars[i]? = some p ∧ ∀ r c, r < m.rows → c < m.cols →
              get p r c s.heap = some (m.table r c))
        ∧ ∀ a, ((Heap.empty : Heap (MatrixObject Int)).live a).isSome →
            s.heap.live a = Heap.empty.live a :=
  program_refines_pool Heap.empty twoMatrices legalAll_twoMatrices

/-- A matrix is constructed, filled and destroyed. -/
def oneMatrix : List (Command Int) :=
  [.construct ⟨true, true⟩ 2 1 .zeros, .update 0 (.fill 7), .destroy 0]

theorem program_restores_heap_oneMatrix :
    ExitsStarved oneMatrix (execAll oneMatrix ⟨Heap.empty, []⟩)
      ∨ ∃ s, execAll oneMatrix ⟨Heap.empty, []⟩ = .ok s
        ∧ ∀ a, s.heap.live a = (Heap.empty : Heap (MatrixObject Int)).live a :=
  program_restores_heap Heap.empty oneMatrix
    ⟨(by decide : 2 * 1 * 8 < 2 ^ 64), ⟨_, rfl, trivial⟩, ⟨_, rfl⟩, trivial⟩
    (fun _ hm => List.mem_singleton.mp hm)

/-! ## Matrices on one array

    `Matrix_create` takes the array from its caller.  Two matrices created on the
    same one are two shapes of the same cells. -/

section Shared

/-- Two pointers are of matrices whose array is the same. -/
structure Shared (heap : Heap (MatrixObject α)) (data p q : Nat) (cols rows cols' rows' : UInt64) :
    Prop where
  first : heap.live p = some (.matrix cols rows data)
  second : heap.live q = some (.matrix cols' rows' data)
  array : ∃ block, heap.live data = some (.array block)
  apart : data ≠ p ∧ data ≠ q ∧ p ≠ q

/-- An update of the first matrix or of the second. -/
def updateEither (p q : Nat) (heap : Heap (MatrixObject α)) :
    Bool × Update UInt64 α → Option (Heap (MatrixObject α))
  | (true, u) => updateAt p heap u
  | (false, u) => updateAt q heap u

/-- Updates of either, one after the other. -/
def updateAll (p q : Nat) :
    List (Bool × Update UInt64 α) → Heap (MatrixObject α) → Option (Heap (MatrixObject α))
  | [], heap => some heap
  | u :: us, heap => (updateEither p q heap u).bind (updateAll p q us)

variable {heap : Heap (MatrixObject α)} {data p q : Nat} {cols rows cols' rows' : UInt64}

/-- Both updates load the matrix, run, and store its array. -/
theorem updateAt_eq (heap : Heap (MatrixObject α)) (p : Nat) (u : Update UInt64 α) :
    updateAt p heap u = store p (fun m => runUpdate m u) heap := by
  cases u with
  | set row col value => rfl
  | fill value => rfl

/-- Neither of the two matrices comes first. -/
theorem Shared.symm (h : Shared heap data p q cols rows cols' rows') :
    Shared heap data q p cols' rows' cols rows :=
  ⟨h.second, h.first, h.array, h.apart.2.1, h.apart.1, h.apart.2.2.symm⟩

theorem Shared.load_first (h : Shared heap data p q cols rows cols' rows') {block : Block α}
    (hblock : heap.live data = some (.array block)) :
    load heap p = some (data, ⟨cols, rows, block⟩) := by
  simp only [load, h.first, hblock]

/-- **STEP**: an update through one matrix keeps both on the same array. -/
theorem shared_updateAt (h : Shared heap data p q cols rows cols' rows')
    (u : Update UInt64 α) :
    ∃ heap', updateAt p heap u = some heap' ∧ Shared heap' data p q cols rows cols' rows' := by
  obtain ⟨block, hblock⟩ := h.array
  have hload := h.load_first hblock
  refine ⟨heap.modify data fun _ => .array (runUpdate ⟨cols, rows, block⟩ u).data, ?_, ?_, ?_,
    ?_, h.apart⟩
  · rw [updateAt_eq, store, hload, Option.map_some]
  · rw [modify_live_of_ne _ _ h.apart.1.symm]
    exact h.first
  · rw [modify_live_of_ne _ _ h.apart.2.1.symm]
    exact h.second
  · refine ⟨(runUpdate ⟨cols, rows, block⟩ u).data, ?_⟩
    rw [modify_live_self, hblock]
    rfl

/-- **RUN**: so does any sequence of updates through either. -/
theorem shared_updateAll (us : List (Bool × Update UInt64 α)) :
    ∀ {heap : Heap (MatrixObject α)}, Shared heap data p q cols rows cols' rows' →
      ∃ heap', updateAll p q us heap = some heap'
        ∧ Shared heap' data p q cols rows cols' rows' := by
  induction us with
  | nil => intro heap h; exact ⟨heap, rfl, h⟩
  | cons u us ih =>
      intro heap h
      obtain ⟨first, u⟩ := u
      have hstep : ∃ heap', updateEither p q heap (first, u) = some heap'
          ∧ Shared heap' data p q cols rows cols' rows' := by
        cases first with
        | true => exact shared_updateAt h u
        | false =>
            obtain ⟨heap', hupdate, h'⟩ := shared_updateAt h.symm u
            exact ⟨heap', hupdate, h'.symm⟩
      obtain ⟨heap', hupdate, h'⟩ := hstep
      rw [updateAll, hupdate]
      exact ih h'

/-- Two calls of `Matrix_create` on a live array. -/
theorem shared_create {heap heap₁ heap₂ : Heap (MatrixObject α)} {block : Block α}
    {env env' : Env} (hblock : heap.live data = some (.array block))
    (hp : create env cols rows data heap = .ok (p, heap₁))
    (hq : create env' cols' rows' data heap₁ = .ok (q, heap₂)) :
    Shared heap₂ data p q cols rows cols' rows' := by
  have hcreate : ∀ {env : Env} {cols rows : UInt64} {heap heap' : Heap (MatrixObject α)}
      {p : Nat}, create env cols rows data heap = .ok (p, heap') →
        heap.alloc (.matrix cols rows data) = (p, heap') := by
    intro env cols rows heap heap' p h
    rw [create, allocateMatrix] at h
    cases hm : env.mallocOk with
    | true =>
        simp only [hm, if_true] at h
        exact Except.ok.inj h
    | false =>
        simp only [hm, Bool.false_eq_true, if_false] at h
        cases h
  obtain rfl : (heap.alloc (.matrix cols rows data)).2 = heap₁ :=
    congrArg Prod.snd (hcreate hp)
  obtain rfl : heap.next = p := congrArg Prod.fst (hcreate hp)
  obtain rfl : ((heap.alloc (.matrix cols rows data)).2.alloc (.matrix cols' rows' data)).2
      = heap₂ := congrArg Prod.snd (hcreate hq)
  obtain rfl : heap.next + 1 = q := congrArg Prod.fst (hcreate hq)
  have hdata : data < heap.next := by
    refine Nat.lt_of_not_le ?_
    intro hle
    rw [heap.fresh data hle] at hblock
    cases hblock
  have hnext : (heap.alloc (.matrix cols rows data)).2.next = heap.next + 1 := rfl
  refine ⟨?_, alloc_live_self _ _, ⟨block, ?_⟩, ?_, ?_, ?_⟩
  · rw [alloc_live_of_ne _ _ (by rw [hnext]; exact Nat.ne_of_lt (Nat.lt_succ_self _))]
    exact alloc_live_self _ _
  · rw [alloc_live_of_ne _ _ (by omega), alloc_live_of_ne _ _ (by omega)]
    exact hblock
  · exact Nat.ne_of_lt hdata
  · exact Nat.ne_of_lt (Nat.lt_succ_of_lt hdata)
  · exact Nat.ne_of_lt (Nat.lt_succ_self _)

/-- Destroying the first matrix leaves the second without its array: every later call on
    it, and destroying it too, is undefined. -/
def TakesAway (p q : Nat) (heap : Heap (MatrixObject α)) : Prop :=
  ∃ heap', destroy p heap = some heap' ∧ destroy q heap' = none
    ∧ (∀ r c, get q r c heap' = none) ∧ ∀ u, updateAt q heap' u = none

/-- Matrices on one array take it away from each other. -/
theorem takesAway_of_shared (h : Shared heap data p q cols rows cols' rows') :
    TakesAway p q heap := by
  obtain ⟨block, hblock⟩ := h.array
  -- the header is left, and points to nothing
  have hdangling : load ((heap.free data).free p) q = none := by
    have hheader : ((heap.free data).free p).live q = some (.matrix cols' rows' data) := by
      rw [free_live_of_ne _ h.apart.2.2.symm, free_live_of_ne _ h.apart.2.1.symm]
      exact h.second
    have harray : ((heap.free data).free p).live data = none := by
      rw [free_live_of_ne _ h.apart.1, free_live, if_pos rfl]
    simp only [load, hheader, harray]
  refine ⟨(heap.free data).free p, ?_, ?_, ?_, ?_⟩
  · rw [destroy, h.load_first hblock, Option.map_some]
  · rw [destroy, hdangling]
    rfl
  · intro r c
    rw [get, hdangling]
    rfl
  · intro u
    rw [updateAt_eq, store, hdangling]
    rfl

end Shared

/-- An array of six cells, as two rows of three and as three rows of two. -/
def sixCells : Heap (MatrixObject Int) :=
  (Heap.empty.alloc (.array ⟨6, fun k => k⟩)).2

end CPetMatrixHeap
