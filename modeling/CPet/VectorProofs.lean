import CPet.RunProofs
import Mathlib.Algebra.Ring.Int.Defs

/-! # `dot`

    The loop takes its bound from the first vector and indexes both.  Reading
    a component that a vector does not have is left without a value, and so is
    the whole product then.

    So the product has a value exactly when the first vector is not the longer
    one, and the two orders of the operands agree exactly on vectors of equal
    dimension. -/

namespace CPetVector

open CPetRun

/-- `Vector`, which points to exactly `dims` components. -/
structure Vector (α : Type) where
  dims : UInt64
  components : List α
  exact : components.length = dims.toNat

variable {α : Type}

/-- `v->components[i]`. -/
def Vector.read (v : Vector α) (i : Nat) : Option α := v.components[i]?

/-- A component is there to be read exactly below `dims`. -/
theorem Vector.read_eq_none_iff {v : Vector α} {i : Nat} : v.read i = none ↔ v.dims.toNat ≤ i := by
  rw [read, List.getElem?_eq_none_iff, v.exact]

section Mul

variable [Add α] [Mul α]

/-- `result += a->components[i] * b->components[i]`. -/
def accumulate (a b : Vector α) (i : Nat) (result : Option α) : Option α :=
  result.bind (fun r => (a.read i).bind (fun x => (b.read i).map (fun y => r + x * y)))

/-- Once a component is missing, the result has no value. -/
theorem accumulate_eq_none_iff {a b : Vector α} {i : Nat} {result : Option α} :
    accumulate a b i result = none ↔ result = none ∨ a.read i = none ∨ b.read i = none := by
  cases result with
  | none => simp [accumulate]
  | some r =>
      cases hx : a.read i with
      | none => simp [accumulate, hx]
      | some x =>
          cases hy : b.read i with
          | none => simp [accumulate, hx, hy]
          | some y => simp [accumulate, hx, hy]

variable [Zero α]

/-- `dot(a, b)`. -/
def dot (a b : Vector α) : Option α :=
  forRange a.dims.toNat (fun i result => accumulate a b i result) (some 0)

/-- `norm2(a)`, for a given `sqrt`: the loop of `dot(a, a)`, and the root of its result. -/
def norm2 (sqrt : α → α) (a : Vector α) : Option α :=
  (forRange a.dims.toNat (fun i result => accumulate a a i result) (some 0)).map sqrt

/-- **READS**: some of the first `n` rounds reads a missing component exactly when
    `n` exceeds one of the dimensions. -/
theorem forRange_accumulate_eq_none_iff (a b : Vector α) (n : Nat) :
    forRange n (fun i result => accumulate a b i result) (some 0) = none
      ↔ a.dims.toNat < n ∨ b.dims.toNat < n := by
  induction n with
  | zero => simp [forRange]
  | succ n ih =>
      rw [forRange_succ, accumulate_eq_none_iff, ih, Vector.read_eq_none_iff,
        Vector.read_eq_none_iff]
      omega

/-- A component is missing exactly when the second vector is shorter. -/
theorem dot_eq_none_iff (a b : Vector α) : dot a b = none ↔ b.dims < a.dims := by
  rw [dot, forRange_accumulate_eq_none_iff, UInt64.lt_iff_toNat_lt]
  omega

/-- What is asked of `dot` on two vectors: it reads components that exist in both
    only, and does not depend on their order. -/
structure Symmetric (a b : Vector α) : Prop where
  reads : dot a b ≠ none
  comm : dot a b = dot b a

end Mul

variable [Add α] [CommMagma α]

/-- A round does not depend on the order of the two vectors, -/
theorem accumulate_comm (a b : Vector α) (i : Nat) (result : Option α) :
    accumulate a b i result = accumulate b a i result := by
  cases result with
  | none => rfl
  | some r =>
      cases hx : a.read i with
      | none =>
          cases hy : b.read i with
          | none => simp [accumulate, hx, hy]
          | some y => simp [accumulate, hx, hy]
      | some x =>
          cases hy : b.read i with
          | none => simp [accumulate, hx, hy]
          | some y => simp [accumulate, hx, hy, mul_comm x y]

variable [Zero α]

/-- and nor does the loop. -/
theorem forRange_accumulate_comm (a b : Vector α) (n : Nat) :
    forRange n (fun i result => accumulate a b i result) (some 0)
      = forRange n (fun i result => accumulate b a i result) (some 0) := by
  induction n with
  | zero => rfl
  | succ n ih => rw [forRange_succ, forRange_succ, ih, accumulate_comm]

/-- **SYMMETRIC** if and only if the dimensions are equal. -/
theorem dot_symmetric_iff (a b : Vector α) : Symmetric a b ↔ a.dims = b.dims := by
  constructor
  · rintro ⟨hreads, hcomm⟩
    have hreads' : dot b a ≠ none := hcomm ▸ hreads
    rw [Ne, dot_eq_none_iff, UInt64.not_lt] at hreads hreads'
    exact UInt64.le_antisymm hreads hreads'
  · intro hdims
    refine ⟨?_, ?_⟩
    · rw [Ne, dot_eq_none_iff, hdims, UInt64.not_lt]
      exact UInt64.le_refl _
    · rw [dot, dot, hdims]
      exact forRange_accumulate_comm a b _

/-- The vector 1, 2, 3. -/
def oneTwoThree : Vector Int := ⟨3, [1, 2, 3], rfl⟩

/-- The vector -1. -/
def minusOne : Vector Int := ⟨1, [-1], rfl⟩

example : dot oneTwoThree oneTwoThree = some 14 := by decide

/-- With the longer vector in front, two components of the shorter one are read
    that it does not have. -/
theorem dot_symmetric_fails_longer : ¬ ∀ a b : Vector Int, Symmetric a b := by
  intro h
  exact absurd (h oneTwoThree minusOne).reads (by decide)

end CPetVector
