import CPet.FormatProofs
import CPet.StrconcatProofs

/-! # `assertEqualsString`

    A failed assertion prints both strings with their lengths.  The message is
    put together in a local buffer of both lengths and 50 bytes; its fixed text
    alone has 51, and there are the digits of the lengths and a terminator.

    So the message never fits, and each call that has something to report
    writes past its buffer.  What it overwrites there is left out: the message
    is then printed as it was put together. -/

namespace CPetAsserts

open CPetDecimal CPetFormat CPetStrconcat

/-- `strcmp` of two texts. -/
def strcmp : List UInt8 → List UInt8 → Int
  | [], [] => 0
  | [], y :: _ => -(y.toNat : Int)
  | x :: _, [] => x.toNat
  | x :: xs, y :: ys => if x = y then strcmp xs ys else (x.toNat : Int) - y.toNat

/-- The bytes of a literal. -/
def literalBytes (text : String) : List UInt8 := text.toList.map Char.toUInt8

/-- `RED`. -/
def red : List UInt8 := literalBytes "\x1b[0;31m"

/-- `RESET`. -/
def reset : List UInt8 := literalBytes "\x1b[0m"

/-- What is printed, the stores into the message buffer (latest first), and
    whether `assert(false)` has been reached. -/
structure AssertState where
  stdout : List UInt8
  stores : List Store
  aborted : Bool

/-- `logError(str)`. -/
def logError (str : List UInt8) (s : AssertState) : AssertState :=
  { s with stdout := s.stdout ++ render (parse "%s[ERROR] %s%s\n".toList) [red, str, reset] }

/-- `sprintf` of a text into a buffer: the text and a NUL are stored. -/
def sprintfTo (size : Nat) (text : List UInt8) (s : AssertState) : AssertState :=
  { s with
    stores := (List.range (text.length + 1)).map (fun k : Nat => ⟨size, k⟩) ++ s.stores }

/-- The format of the message. -/
def errorFormat : List (Piece UInt8) :=
  parse "Strings are not equal:\nExpected (%lu): %s\n  Actual (%lu): %s\n".toList

/-- The texts of its arguments. -/
def errorArgs (expected actual : CStr) : List (List UInt8) :=
  [digitBytes expected.strlen.toNat, expected.text, digitBytes actual.strlen.toNat, actual.text]

/-- The message. -/
def message (expected actual : CStr) : List UInt8 :=
  render errorFormat (errorArgs expected actual)

/-- The size of `errorMsg`. -/
def errorMsgSize (expected actual : CStr) : UInt64 := expected.strlen + actual.strlen + 50

/-- `assertEqualsString(expected, actual)`. -/
def assertEqualsString (expected actual : CStr) (s : AssertState) : AssertState :=
  if strcmp expected.text actual.text ≠ 0 then
    let s := logError (literalBytes "Test failed:") s
    let s := sprintfTo (errorMsgSize expected actual).toNat (message expected actual) s
    let s := logError (message expected actual) s
    { s with aborted := true }
  else s

/-- A byte of a text is not 0. -/
theorem toNat_ne_zero {x : UInt8} {xs : List UInt8} (h : (0 : UInt8) ∉ x :: xs) :
    (x.toNat : Int) ≠ 0 := by
  intro hx
  have hzero : x = 0 := UInt8.toNat_inj.mp (Int.ofNat_eq_zero.mp hx)
  exact h (hzero ▸ List.mem_cons_self)

/-- Texts without NULs compare equal exactly when they are. -/
theorem strcmp_eq_zero_iff :
    ∀ (xs ys : List UInt8), (0 : UInt8) ∉ xs → (0 : UInt8) ∉ ys →
      (strcmp xs ys = 0 ↔ xs = ys) := by
  intro xs
  induction xs with
  | nil =>
      intro ys _ hys
      cases ys with
      | nil => exact iff_of_true rfl rfl
      | cons y ys =>
          exact iff_of_false (fun h => toNat_ne_zero hys (Int.neg_eq_zero.mp h)) nofun
  | cons x xs ih =>
      intro ys hxs hys
      cases ys with
      | nil => exact iff_of_false (toNat_ne_zero hxs) (List.cons_ne_nil x xs)
      | cons y ys =>
          rw [strcmp]
          by_cases hxy : x = y
          · rw [if_pos hxy, ih ys (fun h => hxs (List.mem_cons_of_mem _ h))
              (fun h => hys (List.mem_cons_of_mem _ h)), hxy, List.cons_inj_right]
          · rw [if_neg hxy]
            refine iff_of_false ?_ (fun h => hxy (List.cons.inj h).1)
            intro h
            exact hxy (UInt8.toNat_inj.mp (by omega))

/-! ## The length of the message -/

/-- The format has 51 characters of its own, -/
theorem literals_errorFormat : literals errorFormat = 51 := by decide

/-- and four conversions. -/
theorem conversions_errorFormat : conversions errorFormat = 4 := by decide

/-- The arguments take both strings and the digits of both lengths. -/
theorem length_errorArgs (expected actual : CStr) :
    (errorArgs expected actual).flatten.length
      = expected.text.length + actual.text.length
        + ((digitBytes expected.text.length).length + (digitBytes actual.text.length).length) := by
  simp [errorArgs]
  omega

/-- In arithmetic without wrapping, the buffer has 50 bytes beside the strings. -/
theorem errorMsgSize_le (expected actual : CStr) :
    (errorMsgSize expected actual).toNat ≤ expected.text.length + actual.text.length + 50 := by
  rw [errorMsgSize, UInt64.toNat_add, UInt64.toNat_add, expected.toNat_strlen,
    actual.toNat_strlen, Nat.mod_add_mod]
  exact Nat.mod_le _ _

/-- **TOO LONG**: the fixed text alone exceeds what the buffer has beside the strings. -/
theorem not_fits_message (expected actual : CStr) :
    ¬ Fits (errorMsgSize expected actual).toNat (message expected actual) := by
  intro h
  have hfits := (fits_render_iff conversions_errorFormat (length_errorArgs expected actual)).mp
    (h.mono (errorMsgSize_le expected actual))
  rw [literals_errorFormat] at hfits
  omega

/-! ## Where the message goes -/

/-- Every store made between two states lies inside the buffer. -/
def StoresInside (s s' : AssertState) : Prop :=
  ∃ written, s'.stores = written ++ s.stores ∧ ∀ st ∈ written, st.InBounds

/-- `sprintf` stores inside its buffer exactly when text and terminator fit. -/
theorem storesInside_sprintfTo_iff (size : Nat) (text : List UInt8) (s : AssertState) :
    StoresInside s (sprintfTo size text s) ↔ Fits size text := by
  constructor
  · rintro ⟨written, hwritten, hin⟩
    have hlist := List.append_cancel_right hwritten
    -- the terminator is stored last
    have hlast : (⟨size, text.length⟩ : Store) ∈ written := by
      rw [← hlist]
      exact List.mem_map.mpr ⟨text.length, List.mem_range.mpr (Nat.lt_succ_self _), rfl⟩
    exact hin _ hlast
  · intro hfits
    refine ⟨_, rfl, ?_⟩
    intro st hst
    obtain ⟨k, hk, rfl⟩ := List.mem_map.mp hst
    exact Nat.lt_of_lt_of_le (List.mem_range.mp hk) hfits

/-- Equal strings are accepted silently. -/
theorem assertEqualsString_of_eq {expected actual : CStr} (h : expected.text = actual.text)
    (s : AssertState) : assertEqualsString expected actual s = s := by
  have hcmp := (strcmp_eq_zero_iff _ _ expected.nulFree actual.nulFree).mpr h
  rw [assertEqualsString, if_neg (not_not_intro hcmp)]

/-- Of different strings the message is formatted into the buffer, and the program
    stops. -/
theorem assertEqualsString_of_ne {expected actual : CStr} (h : expected.text ≠ actual.text)
    (s : AssertState) :
    (assertEqualsString expected actual s).aborted = true
      ∧ (assertEqualsString expected actual s).stores
        = (sprintfTo (errorMsgSize expected actual).toNat (message expected actual) s).stores := by
  have hcmp := mt (strcmp_eq_zero_iff _ _ expected.nulFree actual.nulFree).mp h
  rw [assertEqualsString, if_pos hcmp]
  exact ⟨rfl, rfl⟩

/-- **NEVER**: whatever two different strings are compared, their message is longer
    than its buffer, and stores past it. -/
theorem message_never_fits (expected actual : CStr) (h : expected.text ≠ actual.text)
    (s : AssertState) :
    ¬ Fits (errorMsgSize expected actual).toNat (message expected actual)
      ∧ ¬ StoresInside s (assertEqualsString expected actual s) := by
  refine ⟨not_fits_message expected actual, ?_⟩
  rw [StoresInside, (assertEqualsString_of_ne h s).2, ← StoresInside, storesInside_sprintfTo_iff]
  exact not_fits_message expected actual

/-- The text `a`. -/
def letterA : CStr := ⟨[97], by decide, by decide⟩

theorem message_never_fits_a :
    ¬ Fits (errorMsgSize CStr.empty letterA).toNat (message CStr.empty letterA)
      ∧ ¬ StoresInside ⟨[], [], false⟩ (assertEqualsString CStr.empty letterA ⟨[], [], false⟩) :=
  message_never_fits CStr.empty letterA (by decide) _

/-- An empty string and one letter make 54 bytes and a terminator, and the buffer has 51. -/
theorem message_fits_fails_a :
    ¬ ∀ expected actual : CStr, expected.text ≠ actual.text →
      Fits (errorMsgSize expected actual).toNat (message expected actual) := by
  intro h
  exact not_fits_message CStr.empty letterA (h CStr.empty letterA (by decide))

end CPetAsserts
