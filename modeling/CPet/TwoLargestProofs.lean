import CPet.IntArrayProofs
import CPet.TopTwoProofs

/-! # `findTwoLargest`

    One pass over the array, with two locals that start at zero.  An element
    is compared with the current second; when it is larger it takes the second
    place, and the two change places when it is larger than the first too.

    So the locals are the two largest of the elements seen and of two zeros,
    in every order of arrival.  They are the two largest elements themselves
    exactly when two of the elements are not negative. -/

namespace CPetTwoLargest

open CPetIntArray CPetRun CPetTopTwo

/-- The locals `f` and `s`. -/
structure Locals where
  f : Int
  s : Int
  deriving DecidableEq

/-- The loop body at the pointer `p`. -/
def body (p : Int) (v : Locals) (m : Mem) : Locals × Mem :=
  let (x, m) := load p m
  if x > v.s then
    -- `s = *p` reads the element once more
    let (s, m) := load p m
    if s > v.f then
      let tmp := s
      let s := v.f
      let f := tmp
      (⟨f, s⟩, m)
    else (⟨v.f, s⟩, m)
  else (v, m)

/-- What is stored through `first` and `second`, and the memory of the array. -/
structure Outcome where
  first : Int
  second : Int
  mem : Mem

/-- `findTwoLargest(a, n, first, second)`. -/
def findTwoLargest (n : Int) (m : Mem) : Outcome :=
  let (v, m) := forRange n.toNat (fun p st => body p st.1 st.2) (⟨0, 0⟩, m)
  ⟨v.f, v.s, m⟩

/-- `a[0], ..., a[n-1]`. -/
def elements (n : Int) (ar : Int → Int) : List Int :=
  (List.range n.toNat).map (fun k : Nat => ar k)

/-! ## The loop -/

section Loop

variable {p : Int} {v : Locals} {m : Mem}

theorem body_eq : body p v m
    = if m.ar p > v.s then
        if m.ar p > v.f then (⟨m.ar p, v.f⟩, { m with touched := p :: p :: m.touched })
        else (⟨v.f, m.ar p⟩, { m with touched := p :: p :: m.touched })
      else (v, { m with touched := p :: m.touched }) := rfl

/-- The array is read only, and only at `p`. -/
theorem body_mem : (body p v m).2.ar = m.ar
    ∧ ∀ k ∈ (body p v m).2.touched, k = p ∨ k ∈ m.touched := by
  by_cases hs : m.ar p > v.s
  · have htouched : ∀ k ∈ p :: p :: m.touched, k = p ∨ k ∈ m.touched := by
      intro k hk
      rcases List.mem_cons.mp hk with heq | hk
      · exact Or.inl heq
      · exact List.mem_cons.mp hk
    by_cases hf : m.ar p > v.f
    · rw [body_eq, if_pos hs, if_pos hf]
      exact ⟨rfl, htouched⟩
    · rw [body_eq, if_pos hs, if_neg hf]
      exact ⟨rfl, htouched⟩
  · rw [body_eq, if_neg hs]
    exact ⟨rfl, fun k hk => List.mem_cons.mp hk⟩

/-- **STEP**: the locals stay the two largest when an element is added. -/
theorem topTwo_body {S : Multiset Int} (h : TopTwo S v.f v.s) :
    TopTwo (m.ar p ::ₘ S) (body p v m).1.f (body p v m).1.s := by
  by_cases hs : m.ar p > v.s
  · by_cases hf : m.ar p > v.f
    · rw [body_eq, if_pos hs, if_pos hf]
      exact h.cons_first (le_of_lt hf)
    · rw [body_eq, if_pos hs, if_neg hf]
      exact h.cons_second (le_of_lt hs) (not_lt.mp hf)
  · rw [body_eq, if_neg hs]
    exact h.cons_of_le (not_lt.mp hs)

end Loop

/-- The elements and the two zeros the locals start with. -/
def padded (n : Int) (ar : Int → Int) : Multiset Int :=
  0 ::ₘ 0 ::ₘ (elements n ar : Multiset Int)

/-- One more element joins the two zeros and those before. -/
theorem padded_succ (ar : Int → Int) (k : Nat) :
    padded (k + 1 : Nat) ar = ar k ::ₘ padded k ar := by
  have helements : elements (k + 1 : Nat) ar = elements k ar ++ [ar k] := by
    simp [elements, List.range_succ]
  have hperm : ((elements k ar ++ [ar k] : List Int) : Multiset Int)
      = ar k ::ₘ (elements k ar : Multiset Int) :=
    Multiset.coe_eq_coe.mpr (List.perm_append_singleton _ _)
  rw [padded, helements, hperm, Multiset.cons_swap 0 (ar k), Multiset.cons_swap 0 (ar k)]
  rfl

/-- What is known when the elements before `k` have been seen. -/
structure Seen (n : Int) (m : Mem) (k : Nat) (st : Locals × Mem) : Prop where
  ar : st.2.ar = m.ar
  touched : ∀ i ∈ st.2.touched, (0 ≤ i ∧ i < n) ∨ i ∈ m.touched
  topTwo : TopTwo (padded k m.ar) st.1.f st.1.s

/-- At the start only the two zeros have been seen. -/
theorem seen_start (n : Int) (m : Mem) : Seen n m 0 (⟨0, 0⟩, m) where
  ar := rfl
  touched := fun _ hi => Or.inr hi
  topTwo := topTwo_iff.mpr ⟨0, rfl, le_refl 0, fun x hx => absurd hx (Multiset.notMem_zero x)⟩

/-- **STEP**: a round sees one more element. -/
theorem seen_body {n : Int} {m : Mem} {k : Nat} (hk : k < n.toNat) {st : Locals × Mem}
    (h : Seen n m k st) : Seen n m (k + 1) (body k st.1 st.2) where
  ar := body_mem.1.trans h.ar
  touched := by
    intro i hi
    rcases body_mem.2 i hi with heq | hold
    · exact Or.inl (by omega)
    · exact h.touched i hold
  topTwo := by
    rw [padded_succ, ← h.ar]
    exact topTwo_body (h.ar ▸ h.topTwo)

/-- **RUN**: at the end the locals are the two largest of the elements and the
    zeros, and nothing but the elements has been read. -/
theorem findTwoLargest_spec (n : Int) (m : Mem) :
    TopTwo (padded n m.ar) (findTwoLargest n m).first (findTwoLargest n m).second
      ∧ ∀ k ∈ (findTwoLargest n m).mem.touched, (0 ≤ k ∧ k < n) ∨ k ∈ m.touched := by
  have hseen : Seen n m n.toNat
      (forRange n.toNat (fun p st => body p st.1 st.2) (⟨0, 0⟩, m)) :=
    forRange_invariant n.toNat (seen_start n m) (fun k hk _ h => seen_body hk h)
  have hn : padded (n.toNat : Int) m.ar = padded n m.ar := by
    rw [padded, padded, elements, elements, Int.toNat_natCast]
  exact ⟨hn ▸ hseen.topTwo, hseen.touched⟩

/-! ## What is found -/

/-- **ON EVERY INPUT** the pair stored is, in descending order, the two largest of
    the elements and two zeros; so it depends on the elements alone, not on
    their order. -/
theorem findTwoLargest_padded :
    (∀ (n : Int) (m : Mem),
      TopTwo (0 ::ₘ 0 ::ₘ (elements n m.ar : Multiset Int))
          (findTwoLargest n m).first (findTwoLargest n m).second
        ∧ (findTwoLargest n m).second ≤ (findTwoLargest n m).first)
      ∧ ∀ (n n' : Int) (m m' : Mem), (elements n m.ar).Perm (elements n' m'.ar) →
          (findTwoLargest n m).first = (findTwoLargest n' m').first
            ∧ (findTwoLargest n m).second = (findTwoLargest n' m').second := by
  refine ⟨?_, ?_⟩
  · intro n m
    have htop := (findTwoLargest_spec n m).1
    exact ⟨htop, htop.le⟩
  · intro n n' m m' hperm
    have htop := (findTwoLargest_spec n m).1
    have hsame : padded n m.ar = padded n' m'.ar := by
      rw [padded, padded, Multiset.coe_eq_coe.mpr hperm]
    rw [hsame] at htop
    exact htop.unique (findTwoLargest_spec n' m').1

/-- The array 3, 1, 3. -/
def threeOneThree : Mem := ⟨fun k => if k = 1 then 1 else 3, [], ""⟩

/-- The array 1, 3, 3. -/
def oneThreeThree : Mem := ⟨fun k => if k = 0 then 1 else 3, [], ""⟩

theorem findTwoLargest_padded_perm :
    (findTwoLargest 3 threeOneThree).first = (findTwoLargest 3 oneThreeThree).first
      ∧ (findTwoLargest 3 threeOneThree).second = (findTwoLargest 3 oneThreeThree).second :=
  findTwoLargest_padded.2 3 3 threeOneThree oneThreeThree (by decide)

/-- **THE TWO LARGEST ELEMENTS** are found if and only if at least two elements
    are not negative. -/
theorem findTwoLargest_iff (n : Int) (m : Mem) :
    TopTwo (elements n m.ar : Multiset Int) (findTwoLargest n m).first
        (findTwoLargest n m).second
      ↔ 2 ≤ (elements n m.ar).countP (fun x => decide (0 ≤ x)) :=
  topTwo_pad_iff (findTwoLargest_spec n m).1

/-- The array -1, -2. -/
def twoNegatives : Mem := ⟨fun k => -1 - k, [], ""⟩

/-- Both zeros are larger than both elements. -/
theorem topTwo_fails_negatives :
    ¬ ∀ (n : Int) (m : Mem), 2 ≤ n →
        TopTwo (elements n m.ar : Multiset Int) (findTwoLargest n m).first
          (findTwoLargest n m).second := by
  intro h
  have hfirst := (h 2 twoNegatives (by decide)).first.1
  exact absurd hfirst (by decide)

end CPetTwoLargest
