import Mathlib.Tactic.Common

/-! # Text with terminated pieces

    A list of pieces is written by following each with a separator, and read
    back by cutting at the separators.  Pieces free of the separator survive
    the round trip, and so does a table written with one separator for its
    fields and another for its lines. -/

namespace CPetDelimited

variable {α : Type}

/-- Every piece followed by the separator. -/
def joinTerminated (sep : α) (pieces : List (List α)) : List α :=
  pieces.flatMap (fun p => p ++ [sep])

@[simp] theorem joinTerminated_nil (sep : α) : joinTerminated sep [] = [] := rfl

@[simp] theorem joinTerminated_cons (sep : α) (p : List α) (ps : List (List α)) :
    joinTerminated sep (p :: ps) = p ++ sep :: joinTerminated sep ps := by
  simp [joinTerminated]

/-- One more piece goes behind the others, with its separator. -/
theorem joinTerminated_concat (sep : α) (ps : List (List α)) (p : List α) :
    joinTerminated sep (ps ++ [p]) = joinTerminated sep ps ++ p ++ [sep] := by
  simp [joinTerminated]

/-- The text is made of the pieces and the separator. -/
theorem mem_joinTerminated {sep x : α} {pieces : List (List α)} :
    x ∈ joinTerminated sep pieces ↔ ∃ p ∈ pieces, x ∈ p ∨ x = sep := by
  simp [joinTerminated]

/-- Each piece costs its length and the separator. -/
theorem length_joinTerminated_le {sep : α} {k : Nat} {pieces : List (List α)}
    (h : ∀ p ∈ pieces, p.length ≤ k) :
    (joinTerminated sep pieces).length ≤ pieces.length * (k + 1) := by
  induction pieces with
  | nil => exact Nat.zero_le _
  | cons p ps ih =>
      have hhead := h p List.mem_cons_self
      have htail := ih (fun q hq => h q (List.mem_cons_of_mem _ hq))
      rw [joinTerminated_cons, List.length_append, List.length_cons, List.length_cons,
        Nat.succ_mul]
      omega

variable [DecidableEq α]

/-- Put an element in front of the first piece, if there is one. -/
def consHead (x : α) : List (List α) → Option (List (List α))
  | [] => none
  | p :: ps => some ((x :: p) :: ps)

/-- Cut a text after every separator; nothing may follow the last one. -/
def splitTerminated (sep : α) : List α → Option (List (List α))
  | [] => some []
  | x :: xs =>
      if x = sep then (splitTerminated sep xs).map (fun ps => [] :: ps)
      else (splitTerminated sep xs).bind (consHead x)

/-- A piece free of separators is cut off at its terminator. -/
theorem splitTerminated_append {sep : α} {p : List α} (hp : sep ∉ p) (rest : List α) :
    splitTerminated sep (p ++ sep :: rest)
      = (splitTerminated sep rest).map (fun ps => p :: ps) := by
  induction p with
  | nil => exact if_pos rfl
  | cons x xs ih =>
      have hx : ¬ x = sep := fun h => hp (h ▸ List.mem_cons_self)
      have hxs : sep ∉ xs := fun h => hp (List.mem_cons_of_mem _ h)
      rw [List.cons_append, splitTerminated, if_neg hx, ih hxs]
      cases splitTerminated sep rest with
      | none => rfl
      | some ps => rfl

/-- **ROUND TRIP**: pieces free of separators are read back. -/
theorem splitTerminated_join {sep : α} {pieces : List (List α)} :
    (∀ p ∈ pieces, sep ∉ p) →
      splitTerminated sep (joinTerminated sep pieces) = some pieces := by
  induction pieces with
  | nil => intro _; rfl
  | cons p ps ih =>
      intro h
      rw [joinTerminated_cons, splitTerminated_append (h p List.mem_cons_self),
        ih (fun q hq => h q (List.mem_cons_of_mem _ hq))]
      rfl

/-! ## Tables -/

/-- Lines of terminated fields, each line terminated in turn. -/
def encodeTable (tab newline : α) (rows : List (List (List α))) : List α :=
  joinTerminated newline (rows.map (joinTerminated tab))

/-- Cut into lines, and every line into fields. -/
def decodeTable (tab newline : α) (text : List α) : Option (List (List (List α))) :=
  (splitTerminated newline text).bind (fun lines => lines.mapM (splitTerminated tab))

/-- All rows are split into their fields again. -/
theorem mapM_splitTerminated {tab : α} {rows : List (List (List α))} :
    (∀ row ∈ rows, ∀ field ∈ row, tab ∉ field) →
      (rows.map (joinTerminated tab)).mapM (splitTerminated tab) = some rows := by
  induction rows with
  | nil => intro _; rfl
  | cons row rows ih =>
      intro h
      rw [List.map_cons, List.mapM_cons, splitTerminated_join (h row List.mem_cons_self),
        ih (fun r hr => h r (List.mem_cons_of_mem _ hr))]
      rfl

/-- **TABLE ROUND TRIP**: a table is read back when neither separator occurs
    in its fields. -/
theorem decodeTable_encode {tab newline : α} (hne : newline ≠ tab)
    {rows : List (List (List α))}
    (htab : ∀ row ∈ rows, ∀ field ∈ row, tab ∉ field)
    (hnewline : ∀ row ∈ rows, ∀ field ∈ row, newline ∉ field) :
    decodeTable tab newline (encodeTable tab newline rows) = some rows := by
  have hlines : ∀ line ∈ rows.map (joinTerminated tab), newline ∉ line := by
    intro line hline hmem
    obtain ⟨row, hrow, heq⟩ := List.mem_map.mp hline
    rw [← heq, mem_joinTerminated] at hmem
    obtain ⟨field, hfield, hin | htabeq⟩ := hmem
    · exact hnewline row hrow field hfield hin
    · exact hne htabeq
  rw [decodeTable, encodeTable, splitTerminated_join hlines]
  exact mapM_splitTerminated htab

end CPetDelimited
