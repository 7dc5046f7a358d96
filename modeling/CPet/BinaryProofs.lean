import CPet.PositionalProofs

/-! # `printBinary`

    The text of a 32-bit number is put together from the entries of `bit_rep` for
    its eight groups of four bits.  An entry denotes its own index in base 2, and
    the groups are the digits of the number in base 16, so that the text is the
    number in base 2, and the two's complement of an `int` cast to it. -/

namespace CPetBinary

open CPetPositional

/-! ## The routines -/

/-- `bit_rep`. -/
def bitRep : List String :=
  ["0000", "0001", "0010", "0011",
   "0100", "0101", "0110", "0111",
   "1000", "1001", "1010", "1011",
   "1100", "1101", "1110", "1111"]

/-- The indices into `bit_rep`, in the order of the arguments. -/
def indices (x : UInt32) : List UInt32 :=
  [x >>> 28, x >>> 24 &&& 0xF, x >>> 20 &&& 0xF, x >>> 16 &&& 0xF,
   x >>> 12 &&& 0xF, x >>> 8 &&& 0xF, x >>> 4 &&& 0xF, x &&& 0xF]

/-- `printf("%s%s...", bit_rep[i], ...)`, which goes wrong where an index is past the
    end of the table. -/
def printReps : List UInt32 → Option (List Char)
  | [] => some []
  | i :: is => do
      let rep ← bitRep[i.toNat]?
      let rest ← printReps is
      some (rep.toList ++ rest)

/-- `printBinary(x)`: the text printed. -/
def printBinary (x : UInt32) : Option (List Char) := printReps (indices x)

/-- `printf("Decimal: %d, hex: %x, oct: %o, bin: ", x, x, x)`; the last two print the
    number that the `int` is cast to. -/
def header (x : Int32) : List Char :=
  "Decimal: ".toList ++ (toString x.toInt).toList
    ++ ", hex: ".toList ++ Nat.toDigits 16 x.toUInt32.toNat
    ++ ", oct: ".toList ++ Nat.toDigits 8 x.toUInt32.toNat ++ ", bin: ".toList

/-- What `printRepresentations` prints for its `x`. -/
def representations (x : Int32) : Option (List Char) := do
  let bin ← printBinary x.toUInt32
  some (header x ++ bin ++ ['\n'])

/-- `printRepresentations()`. -/
def printRepresentations : Option (List Char) := representations (-2)

/-! ## The table -/

/-- The entry of a group of bits. -/
def rep (d : Nat) : List Char := (bitRep.getD d "").toList

theorem all_rep :
    (List.range 16).all (fun d => (rep d).length == 4
      && ((rep d).all (fun c => decide (IsBit c)) && Nat.ofDigitChars 2 (rep d) 0 == d))
      = true := by decide

/-- **TABLE**: an entry is four bits long and denotes its index. -/
theorem rep_spec {d : Nat} (h : d < 16) :
    (rep d).length = 4 ∧ (∀ c ∈ rep d, IsBit c) ∧ Nat.ofDigitChars 2 (rep d) 0 = d := by
  have hentry := List.all_eq_true.mp all_rep d (List.mem_range.mpr h)
  rw [Bool.and_eq_true_iff, Bool.and_eq_true_iff, beq_iff_eq, beq_iff_eq] at hentry
  obtain ⟨hlen, hbits, hval⟩ := hentry
  exact ⟨hlen, fun c hc => of_decide_eq_true (List.all_eq_true.mp hbits c hc), hval⟩

theorem printReps_eq {is : List UInt32} (h : ∀ i ∈ is, i.toNat < 16) :
    printReps is = some ((is.map UInt32.toNat).flatMap rep) := by
  induction is with
  | nil => rfl
  | cons i is ih =>
      have hentry : bitRep[i.toNat]? = some (bitRep.getD i.toNat "") := by
        have hlen : i.toNat < bitRep.length := h i List.mem_cons_self
        rw [List.getD_eq_getElem?_getD, List.getElem?_eq_getElem hlen]
        rfl
      rw [printReps, hentry, ih (fun j hj => h j (List.mem_cons_of_mem _ hj)), List.map_cons,
        List.flatMap_cons]
      rfl

/-! ## The groups of bits -/

/-- A group of four bits, shifted down and masked. -/
theorem toNat_group (x : UInt32) {s : UInt32} (h : s.toNat < 32) :
    (x >>> s &&& 0xF).toNat = x.toNat / 2 ^ s.toNat % 16 := by
  rw [UInt32.toNat_and, UInt32.toNat_shiftRight, Nat.mod_eq_of_lt h, Nat.shiftRight_eq_div_pow]
  exact Nat.and_two_pow_sub_one_eq_mod _ 4

/-- The first group needs no mask. -/
theorem first_group (x : UInt32) : x >>> 28 = x >>> 28 &&& 0xF := by
  refine UInt32.toNat_inj.mp ?_
  have hx : x.toNat < 2 ^ 32 := x.toNat_lt
  rw [toNat_group x (by decide), UInt32.toNat_shiftRight, Nat.shiftRight_eq_div_pow]
  show x.toNat / 2 ^ 28 = x.toNat / 2 ^ 28 % 16
  omega

/-- The last group needs no shift. -/
theorem last_group (x : UInt32) : x &&& 0xF = x >>> (0 : UInt32) &&& 0xF := by
  rw [UInt32.shiftRight_zero]

/-- **GROUPS**: the indices are the digits in base 16. -/
theorem map_toNat_indices (x : UInt32) :
    (indices x).map UInt32.toNat = fixedDigits 16 8 x.toNat := by
  have hshifts : indices x
      = (List.range 8).reverse.map (fun i => x >>> UInt32.ofNat (4 * i) &&& 0xF) := by
    rw [indices, first_group, last_group]
    rfl
  rw [hshifts, fixedDigits_eq_map, List.map_map]
  refine List.map_congr_left ?_
  intro i hi
  have hi8 : i < 8 := List.mem_range.mp (List.mem_reverse.mp hi)
  have hshift : (UInt32.ofNat (4 * i)).toNat = 4 * i :=
    UInt32.toNat_ofNat_of_lt' (by show 4 * i < 2 ^ 32; omega)
  show (x >>> UInt32.ofNat (4 * i) &&& 0xF).toNat = x.toNat / 16 ^ i % 16
  rw [toNat_group x (by omega), hshift, Nat.pow_mul]

theorem lt_of_mem_indices {x i : UInt32} (h : i ∈ indices x) : i.toNat < 16 := by
  have hmem : i.toNat ∈ fixedDigits 16 8 x.toNat := by
    rw [← map_toNat_indices]
    exact List.mem_map_of_mem h
  exact lt_of_mem_fixedDigits (by decide) hmem

/-- **BITS**: the text is 32 bits, and denotes the number. -/
theorem printBinary_spec (x : UInt32) :
    ∃ text, printBinary x = some text ∧ text.length = 32 ∧ (∀ c ∈ text, IsBit c)
      ∧ Nat.ofDigitChars 2 text 0 = x.toNat := by
  have hdigit : ∀ d ∈ fixedDigits 16 8 x.toNat, d < 16 :=
    fun d hd => lt_of_mem_fixedDigits (by decide) hd
  have hlen : ∀ d ∈ fixedDigits 16 8 x.toNat, (rep d).length = 4 :=
    fun d hd => (rep_spec (hdigit d hd)).1
  have hval : ∀ d ∈ fixedDigits 16 8 x.toNat, Nat.ofDigitChars 2 (rep d) 0 = d :=
    fun d hd => (rep_spec (hdigit d hd)).2.2
  refine ⟨(fixedDigits 16 8 x.toNat).flatMap rep, ?_, ?_, ?_, ?_⟩
  · rw [printBinary, printReps_eq (fun i hi => lt_of_mem_indices hi), map_toNat_indices]
  · rw [length_flatMap_blocks hlen, length_fixedDigits]
  · intro c hc
    obtain ⟨d, hd, hcd⟩ := List.mem_flatMap.mp hc
    exact (rep_spec (hdigit d hd)).2.1 c hcd
  · rw [ofDigitChars_flatMap hlen hval]
    show ofDigits 16 (fixedDigits 16 8 x.toNat) 0 = x.toNat
    rw [ofDigits_fixedDigits]
    exact Nat.mod_eq_of_lt x.toNat_lt

/-- **`printBinary` IS EXACT**: no index leaves the table, the text is 32 bits, most
    significant first, and what `printRepresentations` prints last is the two's
    complement of its number. -/
theorem printBinary_exact :
    (∀ x : UInt32, (∀ i ∈ indices x, i.toNat < 16)
        ∧ ∃ text, printBinary x = some text ∧ text.length = 32
          ∧ (∀ c ∈ text, c = '0' ∨ c = '1') ∧ Nat.ofDigitChars 2 text 0 = x.toNat)
      ∧ ∀ z : Int32, ∃ text, printBinary z.toUInt32 = some text
          ∧ representations z = some (header z ++ text ++ ['\n'])
          ∧ ofTwosComplement text = z.toInt := by
  refine ⟨fun x => ⟨fun i hi => lt_of_mem_indices hi, printBinary_spec x⟩, ?_⟩
  intro z
  obtain ⟨text, hprint, hlen, hbits, hval⟩ := printBinary_spec z.toUInt32
  refine ⟨text, hprint, ?_, ?_⟩
  · rw [representations, hprint]
    rfl
  · rw [ofTwosComplement_eq hbits, hval, hlen]
    exact (BitVec.toInt_eq_toNat_bmod z.toBitVec).symm

example : printRepresentations = some ("Decimal: -2, hex: fffffffe, oct: 37777777776, ".toList
    ++ "bin: 11111111111111111111111111111110\n".toList) := by decide

end CPetBinary
