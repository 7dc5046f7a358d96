import CPet.OwnershipProofs
import CPet.ToStringProofs

/-! # `Matrix_toString` when memory runs out

    `strconcat` reports a failed `realloc` by returning `NULL`, and leaves the
    old block to its caller.  `Matrix_toString` overwrites its only pointer to
    that block with the `NULL` and goes on appending, at the old length, to
    whatever the next `realloc(NULL, ...)` gives it.

    So the first failure leaks the block, whatever happens afterwards.  The
    blocks that live during the call are split into the one `result` points to
    and the leaked ones, and something has leaked exactly when some `realloc`
    has failed. -/

namespace CPetToString

open CPetMemory CPetOwnership CPetRun CPetMatrix CPetStrconcat CPetStringBuilder
open CPetDelimited

variable {α : Type}

/-! ## Leaks of a builder -/

/-- The block behind `result` is owned, the others that live have leaked, and
    there are such exactly when a `realloc` has failed. -/
structure Leaks (b : Builder) (leaked : Nat → Prop) : Prop where
  owns : Owns b.mem.heap leaked b.result.toList
  leaked_iff : (∃ a, leaked a) ↔ ¬ b.AllSucceed
  result : b.AllSucceed → b.result ≠ none

theorem leaks_start : Leaks (Builder.start true) (fun _ => False) where
  owns := by
    have hempty : Owns (Heap.empty : Heap (Block UInt8)) (fun _ => False) [] :=
      ⟨fun a => by simp [Heap.empty], by simp, List.nodup_nil⟩
    refine hempty.insert rfl rfl ?_
    intro x hx
    exact alloc_live_of_ne _ _ hx
  leaked_iff := by simp [Builder.AllSucceed, Builder.start]
  result := by simp [Builder.start]

section Append

variable {b : Builder} {leaked : Nat → Prop}

/-- **STEP, FAILED**: the block `result` pointed to has leaked. -/
theorem Leaks.fail (h : Leaks b leaked) {b' : Builder} (hresult : b'.result = none)
    (hheap : b'.mem.heap = b.mem.heap) (hlog : b'.mem.reallocs = false :: b.mem.reallocs) :
    ∃ leaked', Leaks b' leaked' := by
  have hfailed : ¬ b'.AllSucceed := by
    intro hall
    exact nomatch hall false (hlog ▸ List.mem_cons_self)
  cases hold : b.result with
  | none =>
      -- a `realloc` has failed before, and something has leaked then
      have hbefore : ¬ b.AllSucceed := fun hall => h.result hall hold
      refine ⟨leaked, ?_, ?_, ?_⟩
      · rw [hresult, hheap, ← hold]
        exact h.owns
      · exact ⟨fun _ => hfailed, fun _ => h.leaked_iff.mpr hbefore⟩
      · exact fun hall => absurd hall hfailed
  | some p =>
      have howns := h.owns
      rw [hold] at howns
      refine ⟨fun a => leaked a ∨ a = p, ?_, ?_, ?_⟩
      · rw [hresult, hheap]
        exact howns.leak
      · exact ⟨fun _ => hfailed, fun _ => ⟨p, Or.inr rfl⟩⟩
      · exact fun hall => absurd hall hfailed

/-- Freeing what `result` points to leaves the leaked blocks. -/
theorem owns_freePtr {heap : Heap (Block UInt8)} {p : Option Nat}
    (h : Owns heap leaked p.toList) : Owns (freePtr heap p) leaked [] := by
  cases p with
  | none => exact h
  | some p =>
      have hfreed : Owns (heap.freeAll [p]) leaked [] := Owns.freeAll h
      exact hfreed

/-- **STEP, SUCCEEDED**: the new block takes the place of the old one. -/
theorem Leaks.succeed (h : Leaks b leaked) {b' : Builder}
    (hresult : b'.result = some b.mem.heap.next)
    (hlive : (b'.mem.heap.live b.mem.heap.next).isSome)
    (hothers : ∀ a, a ≠ b.mem.heap.next →
      b'.mem.heap.live a = (freePtr b.mem.heap b.result).live a)
    (hlog : b'.mem.reallocs = true :: b.mem.reallocs) : Leaks b' leaked where
  owns := by
    rw [hresult]
    refine (owns_freePtr h.owns).insert ?_ hlive hothers
    exact (freePtr b.mem.heap b.result).fresh _ (Nat.le_of_eq (freePtr_next _ _))
  leaked_iff := by
    rw [h.leaked_iff, Builder.AllSucceed, Builder.AllSucceed, hlog]
    simp
  result := by
    intro _
    rw [hresult]
    exact Option.some_ne_none _

/-- **STEP**: every append keeps the account of what has leaked. -/
theorem Leaks.append (h : Leaks b leaked) (rt : Allocator) (append : Nat → UInt8)
    (appendLen : UInt64) : ∃ leaked', Leaks (b.append rt append appendLen) leaked' := by
  rcases strconcat_cases rt b.result append b.len appendLen b.mem with
    hfail | ⟨stale, hok⟩
  · exact h.fail hfail.result hfail.heap hfail.reallocs
  · refine ⟨leaked, h.succeed hok.result ?_ hok.others hok.reallocs⟩
    rw [append_mem, hok.live]
    rfl

end Append

/-! ## The loops -/

section Loops

variable {fmt : CellFormat α} {rt : Allocator} {stack : Stack} {m : Matrix α}

/-- **ROW**. -/
theorem leaks_appendRow {r : Nat} {b : Builder} (h : ∃ leaked, Leaks b leaked) :
    ∃ leaked, Leaks (appendRow fmt rt stack m r b) leaked := by
  have hcells : ∃ leaked, Leaks
      (forRange m.cols.toNat (fun c b => appendCell fmt rt stack m r c b) b) leaked := by
    refine forRange_invariant (I := fun _ b => ∃ leaked, Leaks b leaked) m.cols.toNat h ?_
    rintro c _ b' ⟨leaked, hb'⟩
    exact hb'.append rt _ _
  obtain ⟨leaked, hcells⟩ := hcells
  exact hcells.append rt _ 1

/-- **RUN**: at the end of the call, what has leaked is accounted for. -/
theorem leaks_matrixToString :
    ∃ leaked, Leaks (matrixToString fmt rt true stack m) leaked := by
  refine forRange_invariant (I := fun _ b => ∃ leaked, Leaks b leaked) m.rows.toNat
    ⟨_, leaks_start⟩ ?_
  intro r _ b hb
  exact leaks_appendRow hb

end Loops

/-! ## What the caller gets -/

/-- The result is `NULL` or a block that holds the whole text, and no other
    block is left. -/
structure CleanResult (text : List UInt8) (b : Builder) : Prop where
  returned : b.result = none ∨ ∃ p blk, b.result = some p
    ∧ b.mem.heap.live p = some blk ∧ b.len.toNat < blk.size
    ∧ cells blk.cell b.len.toNat = text
  others : ∀ a, (b.mem.heap.live a).isSome → b.result = some a

/-- A block that has leaked is live, and not the one returned. -/
theorem Leaks.not_clean {b : Builder} {leaked : Nat → Prop} (h : Leaks b leaked)
    (hfailed : ¬ b.AllSucceed) (text : List UInt8) : ¬ CleanResult text b := by
  intro hclean
  obtain ⟨a, ha⟩ := h.leaked_iff.mpr hfailed
  have hresult := hclean.others a ((h.owns.live a).mpr (Or.inl ha))
  refine h.owns.apart a ?_ ha
  rw [hresult]
  exact List.mem_singleton.mpr rfl

/-- While nothing fails, nothing leaks and the text is complete. -/
theorem Leaks.clean {b : Builder} {leaked : Nat → Prop} (h : Leaks b leaked)
    (hall : b.AllSucceed) {text : List UInt8} (htext : Accumulated b text) :
    CleanResult text b := by
  obtain ⟨p, blk, hholds⟩ := htext hall
  refine ⟨Or.inr ⟨p, blk, hholds.result, hholds.live, ?_, ?_⟩, ?_⟩
  · rw [hholds.len, hholds.size]
    exact Nat.lt_succ_self _
  · rw [hholds.len]
    exact hholds.text
  · intro a ha
    rcases (h.owns.live a).mp ha with hleaked | hresult
    · exact absurd hall (h.leaked_iff.mp ⟨a, hleaked⟩)
    · exact Option.mem_toList.mp hresult

/-- **NO CLEAN FAILURE**: for every matrix and every allocator, `Matrix_toString`
    returns `NULL` or the complete text with nothing else left allocated, if
    and only if all its `realloc` calls, one for each cell and newline, are
    granted, and the text is small enough to be. -/
theorem matrixToString_clean_iff {fmt : CellFormat α} (rt : Allocator) (stack : Stack)
    (m : Matrix α) (hplain : ∀ v, PlainText (fmt.f2Text v))
    (hshort : ∀ r c, r < m.rows → c < m.cols → ShortText fmt (matrixGet m r c)) :
    CleanResult (encodeTable tab newline (cellTexts fmt m))
        (matrixToString fmt rt true stack m)
      ↔ (∀ i, i < m.rows.toNat * (m.cols.toNat + 1) → rt i ≠ none)
        ∧ (encodeTable tab newline (cellTexts fmt m)).length + 1 ≤ ptrdiffMax := by
  obtain ⟨leaked, hleaks⟩ : ∃ leaked, Leaks (matrixToString fmt rt true stack m) leaked :=
    leaks_matrixToString
  have htext : Appended rt (matrixToString fmt rt true stack m)
      (m.rows.toNat * (m.cols.toNat + 1)) (encodeTable tab newline (cellTexts fmt m)) :=
    appended_matrixToString hplain
      fun r c hr hc => hshort _ _ (counter_lt hr) (counter_lt hc)
  constructor
  · intro hclean
    by_contra hrefused
    exact hleaks.not_clean (fun hall => hrefused (htext.allSucceed_iff.mp hall)) _ hclean
  · intro hgranted
    exact hleaks.clean (htext.allSucceed_iff.mpr hgranted) htext.accumulated

/-- The second `realloc` fails, and no other one does. -/
def failsSecond : Allocator := fun n => if n = 1 then none else some (fun _ => 88)

theorem matrixToString_clean_iff_sevens :
    CleanResult (encodeTable tab newline (cellTexts integerFormat sevens))
        (matrixToString integerFormat failsSecond true (fun _ _ _ => 0) sevens)
      ↔ (∀ i, i < sevens.rows.toNat * (sevens.cols.toNat + 1) → failsSecond i ≠ none)
        ∧ (encodeTable tab newline (cellTexts integerFormat sevens)).length + 1
          ≤ ptrdiffMax := by
  refine matrixToString_clean_iff failsSecond (fun _ _ _ => 0) sevens
    plainText_integerFormat ?_
  intro r c _ _
  show (cellText integerFormat (-7)).length + 1 ≤ intMax
  decide

/-- The second cell of a row cannot be appended: the block with the first cell
    is left behind, and the newline comes back in a block of its own. -/
theorem cleanResult_fails_sevens :
    ¬ ∀ (rt : Allocator) (m : Matrix Int),
        CleanResult (encodeTable tab newline (cellTexts integerFormat m))
          (matrixToString integerFormat rt true (fun _ _ _ => 0) m) := by
  intro h
  have hresult := (h failsSecond sevens).others 1 (by decide)
  exact absurd hresult (by decide)

end CPetToString
