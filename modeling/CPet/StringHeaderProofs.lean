import CPet.StrconcatProofs

/-! # `strconcat` as its header documents it

    The header says that both lengths count the terminator.  Called that way,
    the function copies behind the old terminator and keeps it: the block
    holds both strings, each with its own NUL, and reads as the first one.

    So the block reads as the concatenation exactly when the second string is
    empty.  The tests call the function with the plain lengths. -/

namespace CPetStringHeader

open CPetMemory CPetCString CPetStrconcat

/-- `strlen(s) + 1`. -/
def headerLen (s : CStr) : UInt64 := s.strlen + 1

theorem toNat_headerLen (s : CStr) : (headerLen s).toNat = s.text.length + 1 := by
  have hsmall := s.small
  rw [ptrdiffMax] at hsmall
  rw [headerLen, UInt64.toNat_add, s.toNat_strlen, UInt64.toNat_one]
  omega

/-- What `strncpy` copies of it with the length the header asks for. -/
theorem strncpyBytes_headerLen {s : CStr} {f : Nat → UInt8} (h : s.At f) :
    strncpyBytes (headerLen s).toNat f = s.text ++ [0] := by
  rw [toNat_headerLen s, strncpyBytes_terminated _ _ h.ne_zero h.terminated, h.text]

/-- The returned block read as a C string. -/
def readBack (r : Option Nat × StrMem) : Option (List UInt8) :=
  (r.1.bind r.2.heap.live).bind (fun b => cString (cells b.cell b.size))

/-- The size asked for has room for both strings with their terminators, and
    one more byte. -/
theorem toNat_headerSize (s t : CStr) :
    (headerLen s + headerLen t + 1).toNat
      = s.text.length + 1 + (t.text.length + 1) + 1 := by
  have hs := s.small
  have ht := t.small
  have hs' := toNat_headerLen s
  have ht' := toNat_headerLen t
  rw [ptrdiffMax] at hs ht
  rw [concatSize_eq (by omega), hs', ht']

/-- **BOTH TERMINATORS**: the new block starts with the first string and its
    terminator, followed by the second string and its own. -/
theorem cells_headerBlock {old : Block UInt8} {stale append : Nat → UInt8} {s t : CStr}
    (hs : s.At old.cell) (hold : s.text.length < old.size) (ht : t.At append) :
    cells (concatBlock old stale append (headerLen s) (headerLen t)).cell
        (s.text.length + 1 + (t.text.length + 1))
      = s.text ++ 0 :: (t.text ++ [0]) := by
  have hdst := toNat_headerLen s
  have happend := toNat_headerLen t
  have hkept : cells (concatBlock old stale append (headerLen s) (headerLen t)).cell
      (s.text.length + 1) = s.text ++ [0] := by
    rw [cells_congr (g := old.cell), cells_add, hs.text, cells_succ, Nat.add_zero, hs.terminated]
    · rfl
    · intro k hk
      exact concatBlock_cell_of_lt (by omega) (by omega)
  have hcopied : cells (fun k => (concatBlock old stale append (headerLen s) (headerLen t)).cell
      (s.text.length + 1 + k)) (t.text.length + 1) = t.text ++ [0] := by
    rw [← hdst, ← happend, cells_copied, strncpyBytes_headerLen ht]
  rw [cells_add, hkept, hcopied, List.append_assoc]
  rfl

section Call

variable {rt : Allocator} {p : Nat} {b : Block UInt8} {append : Nat → UInt8} {m : StrMem}
  {s t : CStr}

/-- **READ BACK**, the block is the first string. -/
theorem readBack_eq (hlive : m.heap.live p = some b) (hs : s.At b.cell)
    (hold : s.text.length < b.size) (ht : t.At append)
    (hok : (strconcat rt (some p) append (headerLen s) (headerLen t) m).1 ≠ none) :
    readBack (strconcat rt (some p) append (headerLen s) (headerLen t) m) = some s.text := by
  rcases strconcat_cases rt (some p) append (headerLen s) (headerLen t) m with
    hfail | ⟨stale, hsucc⟩
  · exact absurd hfail.result hok
  have hnew := hsucc.live
  rw [blockAt_of_live hlive] at hnew
  rw [readBack, hsucc.result, Option.bind_some, hnew, Option.bind_some, concatBlock_size,
    toNat_headerSize, cells_add, cells_headerBlock hs hold ht, List.append_assoc, List.cons_append]
  -- the first NUL is the old terminator
  exact cString_append s.nulFree _

/-- **CONCATENATION** if and only if there is nothing to append. -/
theorem readBack_concat_iff (hlive : m.heap.live p = some b) (hs : s.At b.cell)
    (hold : s.text.length < b.size) (ht : t.At append)
    (hok : (strconcat rt (some p) append (headerLen s) (headerLen t) m).1 ≠ none) :
    readBack (strconcat rt (some p) append (headerLen s) (headerLen t) m)
        = some (s.text ++ t.text)
      ↔ t.text = [] := by
  rw [readBack_eq hlive hs hold ht hok, Option.some_inj, List.self_eq_append_right]

end Call

/-- The text `hi`. -/
def hi : CStr := ⟨[104, 105], by decide, by decide⟩

/-- A string's bytes in memory. -/
def bytes (s : CStr) (k : Nat) : UInt8 := s.text.getD k 0

/-- `hi` in a block of its own, and nothing else. -/
def hiOnly : StrMem := ⟨(Heap.empty.alloc ⟨3, bytes hi⟩).2, [], [], ""⟩

theorem hi_at : hi.At (bytes hi) := ⟨by decide, by decide⟩

/-- `hi` appended to `hi`. -/
theorem readBack_concat_iff_hi :
    readBack (strconcat (fun _ => some (fun _ => 0)) (some 0) (bytes hi)
        (headerLen hi) (headerLen hi) hiOnly)
        = some (hi.text ++ hi.text)
      ↔ hi.text = [] :=
  readBack_concat_iff (b := ⟨3, bytes hi⟩) (alloc_live_self Heap.empty _) hi_at (by decide)
    hi_at (by decide)

/-- It is not `hihi`: the block reads as `hi`. -/
theorem readBack_concat_fails_hi :
    ¬ ∀ (rt : Allocator) (p : Nat) (b : Block UInt8) (append : Nat → UInt8) (m : StrMem)
      (s t : CStr), m.heap.live p = some b → s.At b.cell → s.text.length < b.size →
        t.At append → (strconcat rt (some p) append (headerLen s) (headerLen t) m).1 ≠ none →
          readBack (strconcat rt (some p) append (headerLen s) (headerLen t) m)
            = some (s.text ++ t.text) := by
  intro h
  have hread := h (fun _ => some (fun _ => 0)) 0 ⟨3, bytes hi⟩ (bytes hi) hiOnly hi hi
    (alloc_live_self Heap.empty _) hi_at (by decide) hi_at (by decide)
  rw [readBack_eq (b := ⟨3, bytes hi⟩) (alloc_live_self Heap.empty _) hi_at (by decide) hi_at
    (by decide)] at hread
  exact absurd hread (by decide)

end CPetStringHeader
