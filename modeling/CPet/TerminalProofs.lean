import Mathlib.Data.List.Basic
import Mathlib.Tactic.Common

/-! # Text with colours

    A terminal shows each character in the style that is set when it arrives.
    An escape sequence shows nothing and changes the style: `ESC [`, numbers
    separated by semicolons, and `m`.  Each number sets one property of the
    style, and 0 sets all of them back.

    A text is shown piece by piece, so what a program prints can be followed
    piece by piece too: plain text is shown as it is, in the current style. -/

namespace CPetTerminal

/-- How a character is shown; colours are numbered from 0 to 7. -/
structure Style where
  foreground : Option Nat
  background : Option Nat
  bold : Bool
  deriving DecidableEq

/-- No colours, not bold. -/
def Style.plain : Style := ⟨none, none, false⟩

/-- The style after one number of an escape sequence. -/
def Style.set (s : Style) (p : Nat) : Style :=
  if p = 0 then plain
  else if p = 1 then { s with bold := true }
  else if 30 ≤ p ∧ p ≤ 37 then { s with foreground := some (p - 30) }
  else if 40 ≤ p ∧ p ≤ 47 then { s with background := some (p - 40) }
  else s

/-- Where a terminal is in its input. -/
inductive Mode where
  | text
  | escape
  /-- In a sequence, after some numbers, in the middle of another. -/
  | numbers (past : List Nat) (current : Nat)
  deriving DecidableEq

/-- What has been shown, and the style of what comes next. -/
structure Terminal where
  shown : List (Char × Style)
  style : Style
  mode : Mode

def esc : Char := '\x1b'

/-- One character arrives. -/
def feed (t : Terminal) (c : Char) : Terminal :=
  match t.mode with
  | .text =>
      if c = esc then { t with mode := .escape }
      else { t with shown := t.shown ++ [(c, t.style)] }
  | .escape => { t with mode := if c = '[' then .numbers [] 0 else .text }
  | .numbers past current =>
      if c.isDigit then { t with mode := .numbers past (10 * current + (c.toNat - 48)) }
      else if c = ';' then { t with mode := .numbers (past ++ [current]) 0 }
      else if c = 'm' then ⟨t.shown, (past ++ [current]).foldl Style.set t.style, .text⟩
      else { t with mode := .text }

/-- A text arrives. -/
def display (text : List Char) (t : Terminal) : Terminal := text.foldl feed t

/-- What is written later is displayed in the state that was left before. -/
theorem display_append (xs ys : List Char) (t : Terminal) :
    display (xs ++ ys) t = display ys (display xs t) := List.foldl_append

/-- Characters shown in one style. -/
def inStyle (s : Style) (text : List Char) : List (Char × Style) := text.map (fun c => (c, s))

/-- The characters are those of the text. -/
theorem map_fst_inStyle (s : Style) (text : List Char) :
    (inStyle s text).map Prod.fst = text := by
  rw [inStyle, List.map_map]
  exact List.map_id text

/-- **PLAIN TEXT** is shown in the current style. -/
theorem display_plain {text : List Char} (h : esc ∉ text) (shown : List (Char × Style))
    (s : Style) :
    display text ⟨shown, s, .text⟩ = ⟨shown ++ inStyle s text, s, .text⟩ := by
  induction text generalizing shown with
  | nil =>
      rw [inStyle, List.map_nil, List.append_nil]
      rfl
  | cons c text ih =>
      rw [List.mem_cons, not_or] at h
      have hfeed : feed ⟨shown, s, .text⟩ c = ⟨shown ++ [(c, s)], s, .text⟩ :=
        if_neg (Ne.symm h.1)
      rw [display, List.foldl_cons, hfeed, ← display, ih h.2, List.append_assoc]
      rfl

end CPetTerminal
