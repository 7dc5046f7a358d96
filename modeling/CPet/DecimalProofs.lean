import CPet.PositionalProofs
import Mathlib.Data.List.Basic
import Mathlib.Data.List.TakeWhile
import Mathlib.Data.Rat.Cast.Order
import Mathlib.Tactic.Linarith
import Mathlib.Tactic.Ring

/-! # Decimal numerals as bytes

    Digits of a natural number, a fixed number of digits after the point, a
    sign in front; and the number such a text denotes, read back by a parser
    that knows nothing of how the text was made. -/

namespace CPetDecimal

def minus : UInt8 := 45

def point : UInt8 := 46

/-- The byte of a digit, of the last one when the number is larger. -/
def digitByte (n : Nat) : UInt8 := UInt8.ofNat (48 + n % 10)

/-- The digits of a number, most significant first. -/
def digitBytes (n : Nat) : List UInt8 := (Nat.toDigits 10 n).map Char.toUInt8

/-- The last `k` digits of a number, with leading zeros. -/
def fixedDigits (k n : Nat) : List UInt8 := (CPetPositional.fixedDigits 10 k n).map digitByte

/-- `n / 10 ^ k` with `k` digits after the point. -/
def fixedPoint (k n : Nat) : List UInt8 :=
  digitBytes (n / 10 ^ k) ++ point :: fixedDigits k n

/-! ## Reading -/

def IsDigit (x : UInt8) : Prop := 48 ≤ x.toNat ∧ x.toNat ≤ 57

instance (x : UInt8) : Decidable (IsDigit x) := inferInstanceAs (Decidable (_ ∧ _))

/-- One more digit. -/
def pushDigit (n : Nat) (x : UInt8) : Nat := 10 * n + (x.toNat - 48)

/-- The number a string of digits denotes. -/
def natOf (text : List UInt8) : Option Nat :=
  if text ≠ [] ∧ text.all (fun x => decide (IsDigit x)) then some (text.foldl pushDigit 0)
  else none

/-- What the digits before a point are made of. -/
def notPoint (x : UInt8) : Bool := x != point

/-- The number denoted by digits and, after a point, more digits. -/
def unsignedOf (text : List UInt8) : Option ℚ :=
  match text.dropWhile notPoint with
  | [] => (natOf text).map (fun w : Nat => (w : ℚ))
  | _ :: frac =>
      (natOf (text.takeWhile notPoint)).bind (fun w : Nat =>
        (natOf frac).map (fun f : Nat => (w : ℚ) + (f : ℚ) / 10 ^ frac.length))

/-- The number a text denotes, with or without a minus sign in front. -/
def denoted : List UInt8 → Option ℚ
  | [] => none
  | x :: xs => if x = minus then (unsignedOf xs).map (fun q => -q) else unsignedOf (x :: xs)

/-! ## Digits -/

/-- The byte of a digit is one of the ten. -/
theorem isDigit_digitByte (n : Nat) : IsDigit (digitByte n) := by
  have hval : (digitByte n).toNat = 48 + n % 10 := by
    rw [digitByte]
    exact UInt8.toNat_ofNat_of_lt' (by show 48 + n % 10 < 256; omega)
  rw [IsDigit, hval]
  omega

/-- Reading the byte of a digit adds the digit. -/
theorem pushDigit_digitByte (n k : Nat) : pushDigit n (digitByte k) = 10 * n + k % 10 := by
  have hval : (digitByte k).toNat = 48 + k % 10 := by
    rw [digitByte]
    exact UInt8.toNat_ofNat_of_lt' (by show 48 + k % 10 < 256; omega)
  rw [pushDigit, hval]
  omega

/-- The byte of a decimal digit character has the character's code. -/
theorem toNat_toUInt8 {c : Char} (h : c.isDigit = true) :
    c.toUInt8.toNat = c.toNat ∧ 48 ≤ c.toNat ∧ c.toNat ≤ 57 := by
  rw [Char.isDigit, Bool.and_eq_true, decide_eq_true_eq, decide_eq_true_eq] at h
  have hlow : 48 ≤ c.toNat := h.1
  have hhigh : c.toNat ≤ 57 := h.2
  refine ⟨?_, hlow, hhigh⟩
  show c.toNat % 256 = c.toNat
  omega

/-- Numbers are written in digits only, -/
theorem isDigit_of_mem_digitBytes {n : Nat} {x : UInt8} (h : x ∈ digitBytes n) : IsDigit x := by
  obtain ⟨c, hc, hcx⟩ := List.mem_map.mp h
  obtain ⟨hval, hrange⟩ :=
    toNat_toUInt8 (Nat.isDigit_of_mem_toDigits (by decide) (by decide) hc)
  rw [← hcx, IsDigit, hval]
  exact hrange

/-- also with leading zeros, -/
theorem isDigit_of_mem_fixedDigits {k n : Nat} {x : UInt8} (h : x ∈ fixedDigits k n) :
    IsDigit x := by
  obtain ⟨d, -, rfl⟩ := List.mem_map.mp h
  exact isDigit_digitByte d

/-- and with a point between them. -/
theorem mem_fixedPoint {k n : Nat} {x : UInt8} (h : x ∈ fixedPoint k n) :
    x = point ∨ IsDigit x := by
  rcases List.mem_append.mp h with hwhole | hrest
  · exact Or.inr (isDigit_of_mem_digitBytes hwhole)
  · exact (List.mem_cons.mp hrest).imp id isDigit_of_mem_fixedDigits

/-- There is a digit at least, for 0 too. -/
theorem digitBytes_ne_nil (n : Nat) : digitBytes n ≠ [] := by
  intro h
  have hpos := @Nat.length_toDigits_pos 10 n
  rw [List.map_eq_nil_iff.mp h] at hpos
  exact absurd hpos (by decide)

/-- As many digits are written as were asked for. -/
@[simp] theorem length_fixedDigits (k n : Nat) : (fixedDigits k n).length = k := by
  rw [fixedDigits, List.length_map, CPetPositional.length_fixedDigits]

/-- **LENGTH**: `k` digits are enough exactly below `10 ^ k`. -/
theorem length_digitBytes_le_iff {n k : Nat} (hk : 0 < k) :
    (digitBytes n).length ≤ k ↔ n < 10 ^ k := by
  rw [digitBytes, List.length_map]
  exact Nat.length_toDigits_le_iff (by decide) hk

theorem length_fixedPoint (k n : Nat) :
    (fixedPoint k n).length = (digitBytes (n / 10 ^ k)).length + (k + 1) := by
  rw [fixedPoint, List.length_append, List.length_cons, length_fixedDigits]

/-! ## Read back -/

/-- **DIGITS** read one by one give the number, -/
theorem foldl_digitBytes (n : Nat) : (digitBytes n).foldl pushDigit 0 = n := by
  have hfold : ∀ (cs : List Char) (init : Nat), (∀ c ∈ cs, c.isDigit = true) →
      (cs.map Char.toUInt8).foldl pushDigit init = Nat.ofDigitChars 10 cs init := by
    intro cs
    induction cs with
    | nil => intro init _; rw [Nat.ofDigitChars_nil]; rfl
    | cons c cs ih =>
        intro init h
        have hstep : pushDigit init c.toUInt8 = 10 * init + (c.toNat - '0'.toNat) := by
          rw [pushDigit, (toNat_toUInt8 (h c List.mem_cons_self)).1]
          rfl
        rw [List.map_cons, List.foldl_cons, Nat.ofDigitChars_cons, hstep]
        exact ih _ (fun d hd => h d (List.mem_cons_of_mem _ hd))
  rw [digitBytes, hfold _ _ (fun c hc => Nat.isDigit_of_mem_toDigits (by decide) (by decide) hc)]
  exact Nat.ofDigitChars_ten_toDigits

/-- and the last `k` of them the rest modulo `10 ^ k`. -/
theorem foldl_fixedDigits (k n : Nat) : (fixedDigits k n).foldl pushDigit 0 = n % 10 ^ k := by
  rw [← CPetPositional.ofDigits_fixedDigits, fixedDigits, List.foldl_map]
  refine List.foldl_ext _ _ _ ?_
  intro m d hd
  have hlt : d < 10 := CPetPositional.lt_of_mem_fixedDigits (by decide) hd
  rw [pushDigit_digitByte, Nat.mod_eq_of_lt hlt]

/-- What consists of digits denotes a number. -/
theorem natOf_eq_some {text : List UInt8} (hne : text ≠ []) (h : ∀ x ∈ text, IsDigit x) :
    natOf text = some (text.foldl pushDigit 0) := by
  refine if_pos ⟨hne, ?_⟩
  rw [List.all_eq_true]
  exact fun x hx => decide_eq_true (h x hx)

theorem natOf_digitBytes (n : Nat) : natOf (digitBytes n) = some n := by
  rw [natOf_eq_some (digitBytes_ne_nil n) (fun x hx => isDigit_of_mem_digitBytes hx),
    foldl_digitBytes]

theorem natOf_fixedDigits {k : Nat} (hk : 0 < k) (n : Nat) :
    natOf (fixedDigits k n) = some (n % 10 ^ k) := by
  have hne : fixedDigits k n ≠ [] := by
    intro h
    have hlen := length_fixedDigits k n
    rw [h, List.length_nil] at hlen
    omega
  rw [natOf_eq_some hne (fun x hx => isDigit_of_mem_fixedDigits hx), foldl_fixedDigits]

theorem notPoint_digit {x : UInt8} (h : IsDigit x) : notPoint x = true := by
  rw [notPoint, bne_iff_ne]
  intro heq
  rw [heq] at h
  exact absurd h (by decide)

/-- **WHOLE NUMBERS** are read back. -/
theorem unsignedOf_digitBytes (n : Nat) : unsignedOf (digitBytes n) = some (n : ℚ) := by
  have hdrop : (digitBytes n).dropWhile notPoint = [] := by
    rw [List.dropWhile_eq_nil_iff]
    exact fun x hx => notPoint_digit (isDigit_of_mem_digitBytes hx)
  rw [unsignedOf, hdrop, natOf_digitBytes]
  rfl

/-- **FIXED POINT** numbers are read back. -/
theorem unsignedOf_fixedPoint {k : Nat} (hk : 0 < k) (n : Nat) :
    unsignedOf (fixedPoint k n) = some ((n : ℚ) / 10 ^ k) := by
  have hdigits : ∀ x ∈ digitBytes (n / 10 ^ k), notPoint x = true :=
    fun x hx => notPoint_digit (isDigit_of_mem_digitBytes hx)
  have hstop : ¬ notPoint point = true := by decide
  have hdrop : (fixedPoint k n).dropWhile notPoint
      = point :: fixedDigits k n := by
    rw [fixedPoint, List.dropWhile_append_of_pos hdigits, List.dropWhile_cons_of_neg hstop]
  have htake : (fixedPoint k n).takeWhile notPoint
      = digitBytes (n / 10 ^ k) := by
    rw [fixedPoint, List.takeWhile_append_of_pos hdigits, List.takeWhile_cons_of_neg hstop,
      List.append_nil]
  have hsplit : (n : ℚ) = 10 ^ k * (n / 10 ^ k : ℕ) + (n % 10 ^ k : ℕ) := by
    exact_mod_cast (Nat.div_add_mod n (10 ^ k)).symm
  have hpow : (10 : ℚ) ^ k ≠ 0 := pow_ne_zero k (by norm_num)
  rw [unsignedOf, hdrop]
  simp only [htake, natOf_digitBytes, natOf_fixedDigits hk, length_fixedDigits,
    Option.bind_some, Option.map_some, Option.some.injEq]
  rw [eq_div_iff hpow, add_mul, div_mul_cancel₀ _ hpow, hsplit]
  ring

/-- The sign is read back. -/
theorem denoted_sign {text : List UInt8} (hhead : ∀ x ∈ text.head?, x ≠ minus)
    (hne : text ≠ []) (negative : Prop) [Decidable negative] :
    denoted (if negative then minus :: text else text)
      = (unsignedOf text).map (fun q => if negative then -q else q) := by
  by_cases h : negative
  · simp only [if_pos h]
    rw [denoted, if_pos rfl]
  · simp only [if_neg h]
    cases text with
    | nil => exact absurd rfl hne
    | cons x xs =>
        rw [denoted, if_neg (hhead x rfl)]
        exact Option.map_id'.symm

/-- A text that starts with a digit does not start with a sign. -/
theorem head_ne_minus {text rest : List UInt8} (hne : text ≠ [])
    (h : ∀ x ∈ text, IsDigit x) : ∀ x ∈ (text ++ rest).head?, x ≠ minus := by
  intro x hx heq
  cases text with
  | nil => exact absurd rfl hne
  | cons y ys =>
      have hxy : y = x := Option.some.inj hx
      have hdigit := h y List.mem_cons_self
      rw [hxy, heq] at hdigit
      exact absurd hdigit (by decide)

/-- **SIGNED WHOLE NUMBERS** are read back. -/
theorem denoted_sign_digitBytes (n : Nat) (negative : Prop) [Decidable negative] :
    denoted (if negative then minus :: digitBytes n else digitBytes n)
      = some (if negative then -(n : ℚ) else n) := by
  have hhead : ∀ x ∈ (digitBytes n).head?, x ≠ minus := by
    have h : ∀ x ∈ (digitBytes n ++ []).head?, x ≠ minus :=
      head_ne_minus (digitBytes_ne_nil n) (fun x hx => isDigit_of_mem_digitBytes hx)
    rw [List.append_nil] at h
    exact h
  rw [denoted_sign hhead (digitBytes_ne_nil n), unsignedOf_digitBytes, Option.map_some]

/-- **SIGNED FIXED POINT** numbers are read back. -/
theorem denoted_sign_fixedPoint {k : Nat} (hk : 0 < k) (n : Nat) (negative : Prop)
    [Decidable negative] :
    denoted (if negative then minus :: fixedPoint k n else fixedPoint k n)
      = some (if negative then -((n : ℚ) / 10 ^ k) else (n : ℚ) / 10 ^ k) := by
  have hhead : ∀ x ∈ (fixedPoint k n).head?, x ≠ minus :=
    head_ne_minus (digitBytes_ne_nil _) (fun x hx => isDigit_of_mem_digitBytes hx)
  have hne : fixedPoint k n ≠ [] := List.append_ne_nil_of_left_ne_nil (digitBytes_ne_nil _) _
  rw [denoted_sign hhead hne, unsignedOf_fixedPoint hk, Option.map_some]

end CPetDecimal
