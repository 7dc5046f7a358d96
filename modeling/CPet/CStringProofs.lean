import CPet.DecimalProofs
import CPet.MemoryProofs

/-! # C strings in byte memory

    The parts of the C library that read and write NUL-terminated text: where
    the string at a pointer ends, what `strncpy` stores for a given count, and
    what `sprintf` leaves in its buffer.  Everything is about the bytes behind
    a pointer (`Nat → UInt8`), whoever owns them. -/

namespace CPetCString

open CPetMemory CPetDecimal

/-- The C string at the head of some bytes: everything up to the first NUL,
    if there is one. -/
def cString : List UInt8 → Option (List UInt8)
  | [] => none
  | x :: xs => if x = 0 then some [] else (cString xs).map (fun s => x :: s)

/-- Of bytes that a NUL follows, the text is what stands in front of their own
    first NUL. -/
theorem cString_append_nul (s rest : List UInt8) :
    cString (s ++ 0 :: rest) = some (s.takeWhile (fun b => b != 0)) := by
  induction s with
  | nil => rfl
  | cons x xs ih =>
      rw [List.cons_append, cString, List.takeWhile_cons]
      by_cases hx : x = 0
      · simp [hx]
      · rw [if_neg hx, ih]
        simp [hx]

/-- Nothing is cut off a NUL-free text. -/
theorem takeWhile_nul_free {s : List UInt8} (h : (0 : UInt8) ∉ s) :
    s.takeWhile (fun b => b != 0) = s := by
  rw [List.takeWhile_eq_self_iff]
  intro b hb
  rw [bne_iff_ne]
  rintro rfl
  exact h hb

/-- Bytes that start with a NUL-free text and a NUL hold that text. -/
theorem cString_append {s : List UInt8} (h : (0 : UInt8) ∉ s) (rest : List UInt8) :
    cString (s ++ 0 :: rest) = some s := by
  rw [cString_append_nul, takeWhile_nul_free h]

/-- The string read is NUL-free and followed by a NUL. -/
theorem cString_some :
    ∀ (bs : List UInt8) {s : List UInt8}, cString bs = some s →
      (0 : UInt8) ∉ s ∧ ∃ rest, bs = s ++ 0 :: rest := by
  intro bs
  induction bs with
  | nil => intro s h; exact nomatch h
  | cons x xs ih =>
      intro s h
      rw [cString] at h
      by_cases hx : x = 0
      · rw [if_pos hx] at h
        have hs : [] = s := Option.some.inj h
        subst hs
        exact ⟨by simp, xs, by rw [hx]; rfl⟩
      · rw [if_neg hx] at h
        obtain ⟨t, ht, hts⟩ := Option.map_eq_some_iff.mp h
        obtain ⟨hnul, rest, hrest⟩ := ih ht
        refine ⟨?_, rest, ?_⟩
        · rw [← hts, List.mem_cons]
          rintro (heq | hmem)
          · exact hx heq.symm
          · exact hnul hmem
        · rw [hrest, ← hts]
          rfl

/-- **READING A C STRING** in an object of `n` bytes: the text is there, free
    of NULs, and its terminator is inside the object. -/
theorem cString_cells_iff {f : Nat → UInt8} {n : Nat} {s : List UInt8} :
    cString (cells f n) = some s
      ↔ s.length < n ∧ cells f s.length = s ∧ (0 : UInt8) ∉ s ∧ f s.length = 0 := by
  constructor
  · intro h
    obtain ⟨hnul, rest, hrest⟩ := cString_some _ h
    have hlen : n = s.length + (rest.length + 1) := by
      have := congrArg List.length hrest
      simpa using this
    have hsplit := cells_add f s.length (rest.length + 1)
    rw [← hlen, hrest, cells_succ] at hsplit
    obtain ⟨h₁, h₂⟩ := List.append_inj hsplit (by simp)
    exact ⟨by omega, h₁.symm, hnul, (List.cons.inj h₂).1.symm⟩
  · rintro ⟨hlt, htext, hnul, hend⟩
    have hlen : n = s.length + (n - s.length - 1 + 1) := by omega
    rw [hlen, cells_add, cells_succ, htext, Nat.add_zero, hend]
    exact cString_append hnul _

/-! ## `strncpy` -/

/-- What `strncpy(dst, src, n)` stores: `src` up to its first NUL, padded with
    NULs to `n` bytes. -/
def strncpyBytes : Nat → (Nat → UInt8) → List UInt8
  | 0, _ => []
  | n + 1, src =>
      if src 0 = 0 then List.replicate (n + 1) 0
      else src 0 :: strncpyBytes n (fun k => src (k + 1))

/-- It always stores `n` bytes. -/
@[simp] theorem length_strncpyBytes :
    ∀ (n : Nat) (src : Nat → UInt8), (strncpyBytes n src).length = n := by
  intro n
  induction n with
  | zero => intro src; rfl
  | succ n ih =>
      intro src
      rw [strncpyBytes]
      by_cases h : src 0 = 0
      · rw [if_pos h, List.length_replicate]
      · rw [if_neg h, List.length_cons, ih]

/-- Without a NUL among them, the first `n` bytes are copied as they are. -/
theorem strncpyBytes_eq_cells :
    ∀ (n : Nat) (src : Nat → UInt8), (∀ k, k < n → src k ≠ 0) →
      strncpyBytes n src = cells src n := by
  intro n
  induction n with
  | zero => intro src _; rfl
  | succ n ih =>
      intro src h
      have h0 : ¬ src 0 = 0 := h 0 (Nat.succ_pos n)
      rw [strncpyBytes, if_neg h0, cells_succ, ih]
      intro k hk
      exact h (k + 1) (Nat.succ_lt_succ hk)

/-- With room for it, the terminator is copied behind the text. -/
theorem strncpyBytes_terminated :
    ∀ (n : Nat) (src : Nat → UInt8), (∀ k, k < n → src k ≠ 0) → src n = 0 →
      strncpyBytes (n + 1) src = cells src n ++ [0] := by
  intro n
  induction n with
  | zero => intro src _ hend; exact if_pos hend
  | succ n ih =>
      intro src h hend
      have h0 : ¬ src 0 = 0 := h 0 (Nat.succ_pos n)
      have hrest : ∀ k, k < n → src (k + 1) ≠ 0 :=
        fun k hk => h (k + 1) (Nat.succ_lt_succ hk)
      rw [strncpyBytes, if_neg h0, cells_succ, ih _ hrest hend]
      rfl

/-! ## `sprintf` -/

/-- `sprintf` of a finished text into a buffer: the text, a NUL, and the old
    contents; it returns the length of the text. -/
def sprintf (buffer : Nat → UInt8) (text : List UInt8) : (Nat → UInt8) × Nat :=
  (fun k => if k = text.length then 0 else text.getD k (buffer k), text.length)

/-- The buffer starts with the text. -/
theorem cells_sprintf (buffer : Nat → UInt8) (text : List UInt8) :
    cells (sprintf buffer text).1 text.length = text := by
  refine List.ext_getElem (by simp) ?_
  intro i h₁ h₂
  have hne : ¬ i = text.length := by omega
  simp [sprintf, hne, h₂]

/-- Every byte `sprintf` stores before its NUL is a byte of the text. -/
theorem sprintf_mem (buffer : Nat → UInt8) {text : List UInt8} {k : Nat}
    (hk : k < text.length) : (sprintf buffer text).1 k ∈ text := by
  have hmem : (sprintf buffer text).1 k ∈ cells (sprintf buffer text).1 text.length :=
    mem_cells.mpr ⟨k, hk, rfl⟩
  rw [cells_sprintf] at hmem
  exact hmem

/-- The text of `%ld`. -/
def ldText (n : Int) : List UInt8 :=
  if n < 0 then minus :: digitBytes n.natAbs else digitBytes n.natAbs

/-- It consists of digits and a minus sign. -/
theorem mem_ldText {n : Int} {x : UInt8} (hx : x ∈ ldText n) :
    x = 45 ∨ (48 ≤ x.toNat ∧ x.toNat ≤ 57) := by
  have hdigit : x ∈ digitBytes n.natAbs → 48 ≤ x.toNat ∧ x.toNat ≤ 57 :=
    isDigit_of_mem_digitBytes
  rw [ldText] at hx
  by_cases hneg : n < 0
  · rw [if_pos hneg, List.mem_cons] at hx
    exact hx.imp id hdigit
  · rw [if_neg hneg] at hx
    exact Or.inr (hdigit hx)

end CPetCString
