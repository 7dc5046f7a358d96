import CPet.RunProofs
import Mathlib.Data.Fin.VecNotation
import Mathlib.Data.Finset.Card

/-! # `dealRandomHand`

    Every round draws a suit and a rank.  A card that has been dealt before is
    skipped with `continue`, and the round is counted all the same.

    So the cards printed are the distinct ones among the first `handSize`
    draws: never two of a kind, but one fewer for every repetition. -/

namespace CPetHand

open CPetRun

/-! ## Cards -/

/-- `NUM_SUITS`. -/
def numSuits : Nat := 4

/-- `NUM_RANKS`. -/
def numRanks : Nat := 13

/-- `SUITS`. -/
def suits : Fin numSuits → Char := !['c', 'd', 'h', 's']

/-- `RANKS`. -/
def ranks : Fin numRanks → Char :=
  !['2', '3', '4', '5', '6', '7', '8', '9', 't', 'J', 'Q', 'K', 'A']

structure Card where
  suit : Fin numSuits
  rank : Fin numRanks
  deriving DecidableEq

/-- `"%c%c "` of a card. -/
def cardText (c : Card) : List Char := [ranks c.rank, suits c.suit, ' ']

/-- The card of two calls of `rand()`, which return `rand i` and `rand (i + 1)`. -/
def drawCard (rand : Nat → Nat) (i : Nat) : Card :=
  ⟨⟨rand i % numSuits, Nat.mod_lt _ (by decide)⟩,
    ⟨rand (i + 1) % numRanks, Nat.mod_lt _ (by decide)⟩⟩

/-! ## Dealing -/

/-- The table of cards dealt, the number of `rand()` calls, and stdout. -/
structure Deal where
  alreadyDealt : Card → Bool
  calls : Nat
  stdout : List Char

/-- One round of the loop. -/
def dealRound (rand : Nat → Nat) (s : Deal) : Deal :=
  let card := drawCard rand s.calls
  let s := { s with calls := s.calls + 2 }
  -- `continue` goes on to `i++`
  if s.alreadyDealt card then s
  else
    { s with
      alreadyDealt := Function.update s.alreadyDealt card true
      stdout := s.stdout ++ cardText card }

/-- What `requestHandSize` and `dealRandomHand` print before the cards. -/
def greeting : List Char := "How many cards in the hand: Your hand: ".toList

/-- `dealRandomHand()`, when `scanf` reads `handSize`; `rand i` is what the
    `i`-th call of `rand()` returns. -/
def dealRandomHand (rand : Nat → Nat) (handSize : Int) : Deal :=
  let s := forRange handSize.toNat (fun _ s => dealRound rand s)
    ⟨fun _ => false, 0, greeting⟩
  { s with stdout := s.stdout ++ ['\n'] }

/-- The first `n` cards drawn. -/
def draws (rand : Nat → Nat) (n : Nat) : List Card :=
  (List.range n).map (fun k : Nat => drawCard rand (2 * k))

theorem draws_succ (rand : Nat → Nat) (n : Nat) :
    draws rand (n + 1) = draws rand n ++ [drawCard rand (2 * n)] := by
  simp [draws, List.range_succ]

/-- The hand printed consists of `handSize` different cards. -/
def FullHand (handSize : Int) (stdout : List Char) : Prop :=
  ∃ cards : List Card, stdout = greeting ++ cards.flatMap cardText ++ ['\n']
    ∧ (cards.length : Int) = handSize ∧ cards.Nodup

/-! ## The rounds -/

/-- After `k` rounds the cards printed are those drawn, each once. -/
structure Dealt (rand : Nat → Nat) (k : Nat) (cards : List Card) (s : Deal) : Prop where
  calls : s.calls = 2 * k
  stdout : s.stdout = greeting ++ cards.flatMap cardText
  nodup : cards.Nodup
  mem_iff : ∀ c, c ∈ cards ↔ c ∈ draws rand k
  table : ∀ c, s.alreadyDealt c = true ↔ c ∈ cards

theorem dealt_start (rand : Nat → Nat) :
    Dealt rand 0 [] ⟨fun _ => false, 0, greeting⟩ where
  calls := rfl
  stdout := (List.append_nil _).symm
  nodup := List.nodup_nil
  mem_iff := fun _ => Iff.rfl
  table := by simp

section Round

variable {rand : Nat → Nat} {k : Nat} {cards : List Card} {s : Deal}

/-- A round draws a card, and deals it unless it was dealt before. -/
theorem dealRound_eq (h : Dealt rand k cards s) :
    dealRound rand s
      = if s.alreadyDealt (drawCard rand (2 * k)) then { s with calls := 2 * k + 2 }
        else
          { alreadyDealt := Function.update s.alreadyDealt (drawCard rand (2 * k)) true
            calls := 2 * k + 2
            stdout := s.stdout ++ cardText (drawCard rand (2 * k)) } := by
  rw [← h.calls]
  rfl

/-- **STEP**: a round prints the card drawn, unless it has been printed. -/
theorem dealt_round (h : Dealt rand k cards s) :
    ∃ cards', Dealt rand (k + 1) cards' (dealRound rand s) := by
  rw [dealRound_eq h]
  by_cases hdealt : s.alreadyDealt (drawCard rand (2 * k)) = true
  · rw [if_pos hdealt]
    have hold := (h.table _).mp hdealt
    refine ⟨cards, rfl, h.stdout, h.nodup, ?_, h.table⟩
    intro c
    rw [draws_succ, List.mem_append, List.mem_singleton, h.mem_iff]
    constructor
    · exact Or.inl
    · rintro (hc | rfl)
      · exact hc
      · exact (h.mem_iff _).mp hold
  · rw [if_neg hdealt]
    have hnew : drawCard rand (2 * k) ∉ cards := fun hmem => hdealt ((h.table _).mpr hmem)
    refine ⟨cards ++ [drawCard rand (2 * k)], rfl, ?_, ?_, ?_, ?_⟩
    · show s.stdout ++ _ = _
      rw [h.stdout, List.flatMap_append, List.flatMap_singleton, List.append_assoc]
    · exact List.nodup_append.mpr ⟨h.nodup, List.nodup_singleton _, by
        rintro a ha b hb rfl
        exact hnew (List.mem_singleton.mp hb ▸ ha)⟩
    · intro c
      rw [draws_succ, List.mem_append, List.mem_append, h.mem_iff]
    · intro c
      rw [List.mem_append, List.mem_singleton, ← h.table]
      by_cases hc : c = drawCard rand (2 * k)
      · simp [hc]
      · simp [hc]

/-- **RUN**: the hand is made of the distinct cards drawn. -/
theorem dealt_rounds (rand : Nat → Nat) (n : Nat) :
    ∃ cards, Dealt rand n cards
      (forRange n (fun _ s => dealRound rand s) ⟨fun _ => false, 0, greeting⟩) := by
  refine forRange_invariant (I := fun k s => ∃ cards, Dealt rand k cards s) n
    ⟨[], dealt_start rand⟩ ?_
  rintro k _ s ⟨cards, h⟩
  exact dealt_round h

end Round

/-! ## The number of cards -/

/-- Distinct elements of a list are as many as the list is long exactly when it
    repeats none. -/
theorem length_eq_iff_nodup {α : Type} [DecidableEq α] {xs ys : List α} (hxs : xs.Nodup)
    (hmem : ∀ x, x ∈ xs ↔ x ∈ ys) : xs.length = ys.length ↔ ys.Nodup := by
  have hset : xs.toFinset = ys.toFinset := by
    ext x
    rw [List.mem_toFinset, List.mem_toFinset, hmem]
  have hcard : xs.length = ys.toFinset.card := by
    rw [← hset, List.toFinset_card_of_nodup hxs]
  rw [hcard]
  exact Multiset.toFinset_card_eq_card_iff_nodup

/-- Texts of cards are equally long. -/
theorem length_flatMap_cardText (cards : List Card) :
    (cards.flatMap cardText).length = cards.length * 3 := by
  induction cards with
  | nil => rfl
  | cons c cs ih =>
      rw [List.flatMap_cons, List.length_append, ih, List.length_cons, Nat.succ_mul,
        Nat.add_comm]
      rfl

/-- So the text printed fixes the number of cards. -/
theorem Dealt.fullHand_iff {rand : Nat → Nat} {n : Nat} {cards : List Card} {s : Deal}
    (h : Dealt rand n cards s) :
    FullHand n (s.stdout ++ ['\n']) ↔ (draws rand n).Nodup := by
  have hlen : (draws rand n).length = n := by rw [draws, List.length_map, List.length_range]
  rw [← length_eq_iff_nodup h.nodup h.mem_iff, hlen]
  constructor
  · rintro ⟨cards', htext, hcount, -⟩
    rw [h.stdout] at htext
    have hcards := List.append_cancel_left (List.append_cancel_right htext)
    have htexts := congrArg List.length hcards
    rw [length_flatMap_cardText, length_flatMap_cardText] at htexts
    omega
  · intro hcount
    exact ⟨cards, by rw [h.stdout], by exact_mod_cast hcount, h.nodup⟩

/-- **A FULL HAND** is dealt if and only if the first `handSize` draws repeat no
    card. -/
theorem fullHand_iff_draws_nodup (rand : Nat → Nat) {handSize : Int} (h : 0 ≤ handSize) :
    FullHand handSize (dealRandomHand rand handSize).stdout
      ↔ (draws rand handSize.toNat).Nodup := by
  obtain ⟨cards, hdealt⟩ := dealt_rounds rand handSize.toNat
  have hiff := hdealt.fullHand_iff
  rw [Int.toNat_of_nonneg h] at hiff
  exact hiff

/-- The same card is drawn twice before another one. -/
def repeatsFirst : Nat → Nat := fun k => if k < 4 then 0 else 1

theorem fullHand_iff_draws_nodup_two :
    FullHand 2 (dealRandomHand repeatsFirst 2).stdout ↔ (draws repeatsFirst 2).Nodup :=
  fullHand_iff_draws_nodup repeatsFirst (by decide)

/-- Of two rounds one is spent on the repeated card, though the third draw would
    complete the hand. -/
theorem fullHand_fails_repeated :
    ¬ ∀ (rand : Nat → Nat) (handSize : Int), 0 ≤ handSize → handSize ≤ 52 →
        (∃ n, handSize ≤ ((draws rand n).toFinset.card : Int)) →
        FullHand handSize (dealRandomHand rand handSize).stdout := by
  intro h
  obtain ⟨cards, hdealt⟩ := dealt_rounds repeatsFirst 2
  have hfull : FullHand (2 : Nat) (dealRandomHand repeatsFirst 2).stdout :=
    h repeatsFirst 2 (by decide) (by decide) ⟨3, by decide⟩
  exact absurd (hdealt.fullHand_iff.mp hfull) (by decide)

/-! ## Reading the hand back -/

/-- The card that two characters stand for. -/
def readCard (rank suit : Char) : Option Card :=
  ((List.finRange numRanks).find? (fun r => ranks r == rank)).bind fun r =>
    ((List.finRange numSuits).find? (fun s => suits s == suit)).map fun s => ⟨s, r⟩

/-- The cards of a line. -/
def readCards : List Char → Option (List Card)
  | rank :: suit :: ' ' :: rest =>
      (readCard rank suit).bind fun c => (readCards rest).map fun cards => c :: cards
  | ['\n'] => some []
  | _ => none

/-- The hand that has been printed after the greeting. -/
def readHand (stdout : List Char) : Option (List Card) :=
  if stdout.take greeting.length = greeting then readCards (stdout.drop greeting.length)
  else none

/-- A card is read back from its rank and its suit, -/
theorem readCard_eq (c : Card) : readCard (ranks c.rank) (suits c.suit) = some c := by
  have hall : ∀ (suit : Fin numSuits) (rank : Fin numRanks),
      readCard (ranks rank) (suits suit) = some ⟨suit, rank⟩ := by decide
  exact hall c.suit c.rank

/-- and so is a hand. -/
theorem readCards_flatMap (cards : List Card) :
    readCards (cards.flatMap cardText ++ ['\n']) = some cards := by
  induction cards with
  | nil => rfl
  | cons c cards ih =>
      rw [List.flatMap_cons, List.append_assoc]
      show readCards (ranks c.rank :: suits c.suit :: ' ' :: (cards.flatMap cardText ++ ['\n'])) = _
      rw [readCards, readCard_eq, ih, Option.bind_some, Option.map_some]

/-- A hand is read back as it was printed. -/
theorem readHand_eq (cards : List Card) :
    readHand (greeting ++ cards.flatMap cardText ++ ['\n']) = some cards := by
  rw [readHand, List.append_assoc, List.take_left, if_pos rfl, List.drop_left, readCards_flatMap]

/-- The cards printed stand in the order in which they were first drawn. -/
theorem stdout_rounds (rand : Nat → Nat) (n : Nat) :
    (forRange n (fun _ s => dealRound rand s) ⟨fun _ => false, 0, greeting⟩).stdout
      = greeting ++ (draws rand n).eraseDups.flatMap cardText := by
  induction n with
  | zero => exact (List.append_nil _).symm
  | succ n ih =>
      obtain ⟨cards, hdealt⟩ := dealt_rounds rand n
      rw [forRange_succ, dealRound_eq hdealt, draws_succ, List.eraseDups_append]
      by_cases hold : drawCard rand (2 * n) ∈ draws rand n
      · -- a card drawn before is neither printed nor first drawn here
        have htable := (hdealt.table _).mpr ((hdealt.mem_iff _).mpr hold)
        rw [if_pos htable, List.removeAll, List.filter_cons_of_neg (by simp [hold])]
        show Deal.stdout (forRange n _ _) = _
        rw [ih, List.filter_nil, List.eraseDups_nil, List.append_nil]
      · have htable := mt (hdealt.table _).mp (mt (hdealt.mem_iff _).mp hold)
        rw [if_neg htable, List.removeAll, List.filter_cons_of_pos (by simp [hold])]
        show Deal.stdout (forRange n _ _) ++ _ = _
        rw [ih, List.filter_nil, List.eraseDups_cons, List.filter_nil, List.eraseDups_nil,
          List.flatMap_append, List.flatMap_singleton, List.append_assoc]

/-- **READ BACK**: the text printed is read back as the cards drawn, each once, in the
    order in which they were first drawn. -/
theorem readHand_dealRandomHand (rand : Nat → Nat) (handSize : Int) :
    readHand (dealRandomHand rand handSize).stdout
      = some (draws rand handSize.toNat).eraseDups := by
  rw [dealRandomHand, stdout_rounds, readHand_eq]

end CPetHand
