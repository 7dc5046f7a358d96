import Mathlib.Tactic.Linarith

/-! # Positional numerals

    The last `k` digits of a number, most significant first, and the number that
    digits denote.  A digit may be written as a block of digits of a smaller base;
    the text made of the blocks then denotes the number that the digits do.

    Bits are read in two ways: as a number, and in two's complement, where the
    first of them counts negatively. -/

namespace CPetPositional

/-- The last `k` digits of a number. -/
def fixedDigits (b : Nat) : Nat → Nat → List Nat
  | 0, _ => []
  | k + 1, x => fixedDigits b k (x / b) ++ [x % b]

/-- The number that digits denote, behind those read before. -/
def ofDigits (b : Nat) (ds : List Nat) (init : Nat) : Nat :=
  ds.foldl (fun n d => b * n + d) init

def IsBit (c : Char) : Prop := c = '0' ∨ c = '1'

instance (c : Char) : Decidable (IsBit c) := inferInstanceAs (Decidable (_ ∨ _))

/-- The number that bits denote in two's complement. -/
def ofTwosComplement : List Char → Int
  | [] => 0
  | c :: cs =>
      (Nat.ofDigitChars 2 cs 0 : Int) - 2 ^ cs.length * ((c.toNat - '0'.toNat : Nat) : Int)

/-! ## Digits -/

theorem fixedDigits_succ (b k x : Nat) :
    fixedDigits b (k + 1) x = fixedDigits b k (x / b) ++ [x % b] := rfl

/-- As many digits as were asked for, -/
@[simp] theorem length_fixedDigits (b k x : Nat) : (fixedDigits b k x).length = k := by
  induction k generalizing x with
  | zero => rfl
  | succ k ih => rw [fixedDigits_succ, List.length_append, ih, List.length_singleton]

/-- each below the base. -/
theorem lt_of_mem_fixedDigits {b k x d : Nat} (hb : 0 < b) (h : d ∈ fixedDigits b k x) :
    d < b := by
  induction k generalizing x with
  | zero => exact nomatch h
  | succ k ih =>
      rcases List.mem_append.mp h with hmem | hlast
      · exact ih hmem
      · rw [List.mem_singleton.mp hlast]
        exact Nat.mod_lt x hb

/-- **DIGIT BY DIGIT**: the digit of weight `b ^ i` is `x / b ^ i % b`. -/
theorem fixedDigits_eq_map (b k x : Nat) :
    fixedDigits b k x = (List.range k).reverse.map (fun i => x / b ^ i % b) := by
  induction k generalizing x with
  | zero => rfl
  | succ k ih =>
      have hmove : ∀ i, x / b / b ^ i % b = x / b ^ (i + 1) % b := by
        intro i
        rw [Nat.div_div_eq_div_mul, Nat.pow_succ']
      rw [fixedDigits_succ, ih, List.range_succ_eq_map, List.reverse_cons, List.map_append,
        ← List.map_reverse, List.map_map, List.map_singleton, Nat.pow_zero, Nat.div_one]
      exact congrArg (fun ds => ds ++ [x % b]) (List.map_congr_left (fun i _ => hmove i))

/-- **VALUE**: the last `k` digits denote the number modulo `b ^ k`. -/
theorem ofDigits_fixedDigits (b k x : Nat) : ofDigits b (fixedDigits b k x) 0 = x % b ^ k := by
  induction k generalizing x with
  | zero => rw [Nat.pow_zero, Nat.mod_one]; rfl
  | succ k ih =>
      have hstep : ofDigits b (fixedDigits b (k + 1) x) 0
          = b * ofDigits b (fixedDigits b k (x / b)) 0 + x % b := by
        rw [fixedDigits_succ, ofDigits, List.foldl_append]
        rfl
      rw [hstep, ih, Nat.pow_succ', Nat.mod_mul, Nat.add_comm]

/-! ## Digits of a numeral -/

/-- What was read before moves up by the length of the text. -/
theorem ofDigitChars_init (b : Nat) (text : List Char) (init : Nat) :
    Nat.ofDigitChars b text init = b ^ text.length * init + Nat.ofDigitChars b text 0 := by
  induction text generalizing init with
  | nil => rw [Nat.ofDigitChars_nil, Nat.ofDigitChars_nil, List.length_nil, Nat.pow_zero,
      Nat.one_mul, Nat.add_zero]
  | cons c cs ih =>
      rw [Nat.ofDigitChars_cons, Nat.ofDigitChars_cons, ih, ih (b * 0 + _), List.length_cons,
        Nat.pow_succ, Nat.mul_zero, Nat.zero_add, Nat.mul_add, Nat.mul_assoc, Nat.add_assoc]

/-- The first digit counts by its place. -/
theorem ofDigitChars_cons_zero (b : Nat) (c : Char) (cs : List Char) :
    Nat.ofDigitChars b (c :: cs) 0
      = b ^ cs.length * (c.toNat - '0'.toNat) + Nat.ofDigitChars b cs 0 := by
  rw [Nat.ofDigitChars_cons, ofDigitChars_init, Nat.mul_zero, Nat.zero_add]

/-- **BLOCKS**: a text of blocks, each of which denotes its digit, denotes what the
    digits do. -/
theorem ofDigitChars_flatMap {base k : Nat} {rep : Nat → List Char} {ds : List Nat}
    (hlen : ∀ d ∈ ds, (rep d).length = k)
    (hval : ∀ d ∈ ds, Nat.ofDigitChars base (rep d) 0 = d) (init : Nat) :
    Nat.ofDigitChars base (ds.flatMap rep) init = ofDigits (base ^ k) ds init := by
  induction ds generalizing init with
  | nil => exact Nat.ofDigitChars_nil
  | cons d ds ih =>
      have hblock : Nat.ofDigitChars base (rep d) init = base ^ k * init + d := by
        rw [ofDigitChars_init, hlen d List.mem_cons_self, hval d List.mem_cons_self]
      rw [List.flatMap_cons, Nat.ofDigitChars_append, hblock]
      exact ih (fun e he => hlen e (List.mem_cons_of_mem _ he))
        (fun e he => hval e (List.mem_cons_of_mem _ he)) _

/-- Blocks of one length add up. -/
theorem length_flatMap_blocks {k : Nat} {rep : Nat → List Char} {ds : List Nat}
    (hlen : ∀ d ∈ ds, (rep d).length = k) : (ds.flatMap rep).length = ds.length * k := by
  induction ds with
  | nil => exact (Nat.zero_mul k).symm
  | cons d ds ih =>
      rw [List.flatMap_cons, List.length_append, List.length_cons, hlen d List.mem_cons_self,
        ih (fun e he => hlen e (List.mem_cons_of_mem _ he)), Nat.succ_mul, Nat.add_comm]

/-! ## Two's complement -/

theorem IsBit.value {c : Char} (h : IsBit c) :
    c.toNat - '0'.toNat = 0 ∨ c.toNat - '0'.toNat = 1 := by
  rcases h with rfl | rfl
  · exact Or.inl rfl
  · exact Or.inr rfl

/-- The number of `w` bits is below `2 ^ w`. -/
theorem ofDigitChars_bits_lt {text : List Char} (h : ∀ c ∈ text, IsBit c) :
    Nat.ofDigitChars 2 text 0 < 2 ^ text.length := by
  induction text with
  | nil =>
      rw [Nat.ofDigitChars_nil]
      exact Nat.one_pos
  | cons c cs ih =>
      have hrest := ih (fun d hd => h d (List.mem_cons_of_mem _ hd))
      rw [ofDigitChars_cons_zero, List.length_cons, Nat.pow_succ]
      rcases (h c List.mem_cons_self).value with hzero | hone
      · rw [hzero]
        omega
      · rw [hone]
        omega

/-- **TWO'S COMPLEMENT**: the reading of `w` bits is the representative of their number
    modulo `2 ^ w`. -/
theorem ofTwosComplement_eq {text : List Char} (h : ∀ c ∈ text, IsBit c) :
    ofTwosComplement text
      = ((Nat.ofDigitChars 2 text 0 : Nat) : Int).bmod (2 ^ text.length) := by
  cases text with
  | nil => rfl
  | cons c cs =>
      have hbit := (h c List.mem_cons_self).value
      have hrest := ofDigitChars_bits_lt (fun d hd => h d (List.mem_cons_of_mem _ hd))
      rw [ofTwosComplement, ofDigitChars_cons_zero, List.length_cons, Nat.pow_succ,
        show (2 : Int) ^ cs.length = ((2 ^ cs.length : Nat) : Int) from (Int.natCast_pow 2 _).symm]
      generalize c.toNat - '0'.toNat = d at hbit ⊢
      generalize Nat.ofDigitChars 2 cs 0 = v at hrest ⊢
      generalize 2 ^ cs.length = m at hrest ⊢
      -- the two readings of the first bit are a multiple of the modulus apart
      have hshift : ((m * d + v : Nat) : Int) = (v - m * d : Int) + ((m * 2 : Nat) : Int) * d := by
        rcases hbit with rfl | rfl
        · omega
        · omega
      rw [hshift, Int.add_mul_bmod_self_left]
      rcases hbit with rfl | rfl
      · refine (Int.bmod_eq_of_le_mul_two ?_ ?_).symm
        · omega
        · omega
      · refine (Int.bmod_eq_of_le_mul_two ?_ ?_).symm
        · omega
        · omega

end CPetPositional
