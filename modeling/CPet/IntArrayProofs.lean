import CPet.SegmentProofs
import CPet.RunProofs

/-! # `int` arrays behind a pointer

    A C function that is handed `int ar[]` sees a pointer: `ar[k]` is whatever
    lies at that offset, and the callee cannot know where the array ends.  The
    model follows it: a memory `Int → Int` around the pointer, together with
    the log of every offset loaded or stored and the text printed so far.  An
    access outside the caller's array is not hidden, it is in the log. -/

namespace CPetIntArray

open CPetSegment CPetRun

/-- The memory around an array pointer, the offsets accessed (latest first)
    and the text written to stdout. -/
structure Mem where
  ar : Int → Int
  touched : List Int
  stdout : String

/-- Read `ar[k]`. -/
def load (k : Int) (m : Mem) : Int × Mem :=
  (m.ar k, { m with touched := k :: m.touched })

/-- `ar[k] = v`. -/
def store (k v : Int) (m : Mem) : Mem :=
  { m with ar := Function.update m.ar k v, touched := k :: m.touched }

/-- `printf` of a finished text. -/
def print (text : String) (m : Mem) : Mem :=
  { m with stdout := m.stdout ++ text }

/-- `printArray(arr, len)`: every element with `"%d "`, then a newline. -/
def printArray (len : Int) (m : Mem) : Mem :=
  print "\n" (forRange len.toNat (fun i m =>
    let (v, m) := load i m
    print (toString v ++ " ") m) m)

/-- Printing changes no element. -/
theorem printArray_ar (len : Int) (m : Mem) : (printArray len m).ar = m.ar :=
  forRange_invariant (I := fun _ (s : Mem) => s.ar = m.ar) len.toNat rfl
    (fun _ _ _ h => h)

/-- Printing `len` elements reads the offsets `[0, len)` once each, in order. -/
theorem touched_printArray (len : Int) (m : Mem) :
    (printArray len m).touched
      = (List.range len.toNat).reverse.map (fun k : Nat => (k : Int)) ++ m.touched := by
  show (forRange len.toNat _ m).touched = _
  induction len.toNat with
  | zero => rfl
  | succ n ih =>
      rw [forRange_succ, List.range_succ, List.reverse_append, List.map_append, List.append_assoc,
        ← ih]
      rfl

/-- The offsets read are those in front of `len`. -/
theorem mem_printed (len k : Int) :
    k ∈ (List.range len.toNat).reverse.map (fun k : Nat => (k : Int)) ↔ 0 ≤ k ∧ k < len := by
  rw [List.mem_map]
  constructor
  · rintro ⟨d, hd, rfl⟩
    have hd' := List.mem_range.mp (List.mem_reverse.mp hd)
    omega
  · intro hk
    refine ⟨k.toNat, List.mem_reverse.mpr (List.mem_range.mpr ?_), ?_⟩
    · omega
    · show (k.toNat : Int) = k
      omega

end CPetIntArray
