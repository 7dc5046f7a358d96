import Mathlib.Data.List.Basic

/-! # Formatted output

    A format is a list of literal bytes and conversions; printing it puts the
    text of one argument in the place of each conversion.  The length of what
    is printed depends on the format through the number of its literals only,
    and whether it fits a buffer is a question about that length. -/

namespace CPetFormat

variable {α : Type}

/-- A literal, or the place of the next argument. -/
inductive Piece (α : Type) where
  | literal (x : α)
  | conversion

/-- Print a format with the texts of its arguments. -/
def render : List (Piece α) → List (List α) → List α
  | [], _ => []
  | .literal x :: ps, args => x :: render ps args
  -- no argument is left for this conversion
  | .conversion :: ps, [] => render ps []
  | .conversion :: ps, arg :: args => arg ++ render ps args

/-- The number of literals. -/
def literals : List (Piece α) → Nat
  | [] => 0
  | .literal _ :: ps => literals ps + 1
  | .conversion :: ps => literals ps

/-- The number of conversions. -/
def conversions : List (Piece α) → Nat
  | [] => 0
  | .literal _ :: ps => conversions ps
  | .conversion :: ps => conversions ps + 1

/-- **LENGTH**: with one argument a conversion, the literals and the arguments. -/
theorem length_render :
    ∀ (ps : List (Piece α)) (args : List (List α)), conversions ps = args.length →
      (render ps args).length = literals ps + args.flatten.length := by
  intro ps
  induction ps with
  | nil =>
      intro args h
      rw [List.length_eq_zero_iff.mp h.symm]
      rfl
  | cons p ps ih =>
      intro args h
      cases p with
      | literal x =>
          rw [render, literals, List.length_cons, ih args h]
          omega
      | conversion =>
          cases args with
          | nil => exact nomatch h
          | cons arg args =>
              rw [render, literals, List.length_append, List.flatten_cons, List.length_append,
                ih args (Nat.succ.inj h)]
              omega

/-- The pieces of a C format: a conversion is one letter, or `l` and a letter. -/
def parse : List Char → List (Piece UInt8)
  | [] => []
  | '%' :: 'l' :: _ :: cs => .conversion :: parse cs
  | '%' :: _ :: cs => .conversion :: parse cs
  | c :: cs => .literal c.toUInt8 :: parse cs

example : render (parse "%lu of %s\n".toList) [[51], [97, 98]]
    = [51, 32, 111, 102, 32, 97, 98, 10] := by decide

/-- A text fits a buffer with its terminator. -/
def Fits (size : Nat) (text : List α) : Prop := text.length + 1 ≤ size

instance (size : Nat) (text : List α) : Decidable (Fits size text) :=
  inferInstanceAs (Decidable (_ ≤ _))

theorem Fits.mono {size size' : Nat} {text : List α} (h : Fits size text) (hle : size ≤ size') :
    Fits size' text := Nat.le_trans h hle

/-- **SLACK**: a buffer that reserves the length of some of the text has to have
    room for everything else in its slack. -/
theorem fits_render_iff {ps : List (Piece α)} {args : List (List α)} {reserved other slack : Nat}
    (hargs : conversions ps = args.length) (hlen : args.flatten.length = reserved + other) :
    Fits (reserved + slack) (render ps args) ↔ literals ps + other + 1 ≤ slack := by
  rw [Fits, length_render ps args hargs, hlen]
  omega

end CPetFormat
