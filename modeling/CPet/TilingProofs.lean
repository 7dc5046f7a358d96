import Mathlib.Tactic.Linarith

/-! # Cutting a length into tiles

    A length is cut into tiles of `b`: all of them full, except that the last
    one takes what is left.  `tiles b size n` lists the first `n` tile lengths
    by position, and the lemmas say how the list unfolds from the front, what
    the first `n` tiles cover, and that `tileCnt` of them cover everything with
    none of them empty. -/

namespace CPetTiling

/-- The length of the `i`-th tile. -/
def tileLen (b size i : Nat) : Nat := min b (size - b * i)

/-- The first `n` tiles. -/
def tiles (b size n : Nat) : List Nat := (List.range n).map (tileLen b size)

/-- The number of tiles: `size / b`, rounded up. -/
def tileCnt (b size : Nat) : Nat := (size + (b - 1)) / b

/-- A list of lengths that tiles `size`: as many as it takes, all full but the
    last, none empty, and nothing left over. -/
structure Tiled (b size : Nat) (lens : List Nat) : Prop where
  count : lens.length = tileCnt b size
  full : ∀ len ∈ lens.dropLast, len = b
  bounds : ∀ len ∈ lens, 1 ≤ len ∧ len ≤ b
  total : lens.sum = size

variable {b size : Nat}

@[simp] theorem length_tiles (b size n : Nat) : (tiles b size n).length = n := by
  simp [tiles]

/-- The first tile, and the tiles of what is left after it. -/
theorem tiles_succ (b size n : Nat) :
    tiles b size (n + 1) = min b size :: tiles b (size - b) n := by
  rw [tiles, List.range_succ_eq_map, List.map_cons, List.map_map, tileLen, Nat.mul_zero,
    Nat.sub_zero]
  refine congrArg (List.cons _) (List.map_congr_left ?_)
  intro i _
  show min b (size - b * (i + 1)) = min b (size - b - b * i)
  rw [Nat.mul_succ, Nat.add_comm, Nat.sub_add_eq]

/-- **COVER**: the first `n` tiles cover `b * n`, or everything. -/
theorem sum_tiles : ∀ (n size : Nat), (tiles b size n).sum = min size (b * n) := by
  intro n
  induction n with
  | zero => intro size; simp [tiles]
  | succ n ih =>
      intro size
      rw [tiles_succ, List.sum_cons, ih, Nat.mul_succ]
      omega

/-- A position is a tile when it starts before the end. -/
theorem lt_tileCnt (hb : 0 < b) {i : Nat} : i < tileCnt b size ↔ b * i < size := by
  rw [tileCnt, Nat.lt_iff_add_one_le, Nat.le_div_iff_mul_le hb, Nat.mul_comm, Nat.mul_succ]
  omega

/-- One tile fewer is left after a full one. -/
theorem tileCnt_sub (hb : 0 < b) {n : Nat} (h : n + 1 ≤ tileCnt b size) :
    n ≤ tileCnt b (size - b) := by
  cases n with
  | zero => exact Nat.zero_le _
  | succ n =>
      have hstart : b * (n + 1) < size := (lt_tileCnt hb).mp h
      rw [Nat.mul_succ] at hstart
      exact (lt_tileCnt hb).mpr (by omega)

theorem le_mul_tileCnt (hb : 0 < b) (size : Nat) : size ≤ b * tileCnt b size := by
  have hend : ¬ tileCnt b size < tileCnt b size := Nat.lt_irrefl _
  rw [lt_tileCnt hb] at hend
  exact Nat.not_lt.mp hend

/-- All tiles together cover everything. -/
theorem sum_tiles_tileCnt (hb : 0 < b) (size : Nat) :
    (tiles b size (tileCnt b size)).sum = size := by
  rw [sum_tiles]
  exact Nat.min_eq_left (le_mul_tileCnt hb size)

/-- **TILING**: the planned tiles tile the length. -/
theorem tiled_tiles (hb : 0 < b) (size : Nat) :
    Tiled b size (tiles b size (tileCnt b size)) where
  count := length_tiles _ _ _
  full := by
    intro len hlen
    rw [List.dropLast_eq_take, length_tiles] at hlen
    obtain ⟨i, hi, rfl⟩ := List.mem_take_iff_getElem.mp hlen
    have hnext : i + 1 < tileCnt b size := by
      rw [length_tiles] at hi
      omega
    have hstart : b * (i + 1) < size := (lt_tileCnt hb).mp hnext
    rw [Nat.mul_succ] at hstart
    simp only [tiles, List.getElem_map, List.getElem_range, tileLen]
    omega
  bounds := by
    intro len hlen
    obtain ⟨i, hi, rfl⟩ := List.mem_map.mp hlen
    have hstart : b * i < size := (lt_tileCnt hb).mp (List.mem_range.mp hi)
    rw [tileLen]
    omega
  total := sum_tiles_tileCnt hb size

end CPetTiling
