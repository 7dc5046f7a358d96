import CPet.TilingProofs
import Mathlib.Tactic.Linarith

/-! # File sizes and the blocks planned for them

    `get_file_size` answers with a size, or with a negative number and a
    message on stderr.  Its callers cut the size into blocks of `BLKSIZE`
    bytes: the count is computed on the signed `off_t`, the lengths on the
    unsigned `size_t`, and both conversions wrap.

    `submitToSq` keeps the count in a `size_t` and what is left in another;
    `read_and_print_file_readv` keeps the count in an `int` and what is left in
    a signed `ssize_t`.  The lengths are the same tiling of the size as long as
    the count fits an `int`; from there on the `int` loses it. -/

namespace CPetBlockPlan

open CPetTiling

/-- What the kernel says about a file descriptor: `fstat` fails, or it is a
    block device whose size the `ioctl` may refuse to tell, a regular file, or
    something else. -/
inductive FileInfo where
  | statFails
  | blockDevice (size : Option Int)
  | regular (size : Int)
  | other

/-- `get_file_size(fd)`: the result and the text on stderr. -/
def getFileSize : FileInfo → Int × String
  | .statFails => (-1, "Couldn't stat the file, got error: -1\n")
  | .blockDevice none => (-2, "Couldn't ioctl the block device")
  | .blockDevice (some size) => (size, "")
  | .regular size => (size, "")
  | .other => (-1, "")

/-- `min(a, b)`, on `unsigned long`. -/
def minUlong (a b : UInt64) : UInt64 :=
  if a < b then a else b

/-- `BLKSIZE`. -/
def blksize : Nat := 4096

/-- `size_t block_cnt = filesize / BLKSIZE + (filesize % BLKSIZE != 0)`. -/
def blockCnt (filesize : Int) : UInt64 :=
  UInt64.ofInt (filesize.tdiv blksize
    + if filesize.tmod blksize ≠ 0 then 1 else 0)

/-- The lengths of `n` consecutive iovecs when `bytesLeft` bytes are left. -/
def iovecLens : Nat → UInt64 → List UInt64
  | 0, _ => []
  | n + 1, bytesLeft =>
      minUlong (UInt64.ofNat blksize) bytesLeft
        :: iovecLens n (bytesLeft - UInt64.ofNat blksize)

/-- `bytesLeft` when block `i` is sized. -/
def bytesLeftAt (filesize : Int) : Nat → UInt64
  | 0 => UInt64.ofInt filesize
  | i + 1 => bytesLeftAt filesize i - UInt64.ofNat blksize

/-- `int block_cnt = (int)(filesize / BLKSIZE) + (filesize % BLKSIZE > 0)`. -/
def readvBlockCnt (filesize : Int) : Int32 :=
  Int32.ofInt (filesize.tdiv blksize)
    + if filesize.tmod blksize > 0 then 1 else 0

/-- The lengths of `n` consecutive iovecs when `bytes_remaining` bytes, a
    signed number, are left. -/
def readvLens : Nat → Int → List UInt64
  | 0, _ => []
  | n + 1, bytesRemaining =>
      minUlong (UInt64.ofNat blksize) (UInt64.ofInt bytesRemaining)
        :: readvLens n (bytesRemaining - blksize)

/-- The iovec lengths `submitToSq` plans. -/
def submitPlan (filesize : Int) : List UInt64 :=
  iovecLens (blockCnt filesize).toNat (UInt64.ofInt filesize)

/-- The iovec lengths `read_and_print_file_readv` plans; a negative count plans
    none. -/
def readvPlan (filesize : Int) : List UInt64 :=
  readvLens (readvBlockCnt filesize).toInt.toNat filesize

/-! ## Lengths -/

/-- As many lengths as were asked for. -/
@[simp] theorem length_iovecLens :
    ∀ (n : Nat) (bytesLeft : UInt64), (iovecLens n bytesLeft).length = n := by
  intro n
  induction n with
  | zero => intro bytesLeft; rfl
  | succ n ih =>
      intro bytesLeft
      rw [iovecLens, List.length_cons, ih]

/-- `min_ulong` is the smaller of the two numbers. -/
theorem toNat_minUlong (a b : UInt64) :
    (minUlong a b).toNat = min a.toNat b.toNat := by
  rw [minUlong]
  by_cases h : a < b
  · rw [if_pos h, Nat.min_eq_left (Nat.le_of_lt (UInt64.lt_iff_toNat_lt.mp h))]
  · rw [if_neg h, Nat.min_eq_right (UInt64.le_iff_toNat_le.mp (UInt64.not_lt.mp h))]

/-- Counting down a signed number of bytes, or its `size_t` value. -/
theorem ofInt_sub_blksize (bytesRemaining : Int) :
    UInt64.ofInt (bytesRemaining - blksize)
      = UInt64.ofInt bytesRemaining - UInt64.ofNat blksize := by
  rw [Int.sub_eq_add_neg, UInt64.ofInt_add, UInt64.ofInt_neg, UInt64.sub_eq_add_neg]
  rfl

/-- The signed count of bytes left and the unsigned one plan the same. -/
theorem readvLens_eq :
    ∀ (n : Nat) (bytesRemaining : Int),
      readvLens n bytesRemaining = iovecLens n (UInt64.ofInt bytesRemaining) := by
  intro n
  induction n with
  | zero => intro bytesRemaining; rfl
  | succ n ih =>
      intro bytesRemaining
      rw [readvLens, iovecLens, ih, ofInt_sub_blksize]

/-- Each length is the smaller of `BLKSIZE` and `bytesLeft` at its block. -/
theorem getElem_iovecLens (filesize : Int) :
    ∀ (n i k : Nat) (h : k < (iovecLens n (bytesLeftAt filesize i)).length),
      (iovecLens n (bytesLeftAt filesize i))[k]
        = minUlong (UInt64.ofNat blksize) (bytesLeftAt filesize (i + k)) := by
  intro n
  induction n with
  | zero => intro i k h; exact nomatch h
  | succ n ih =>
      intro i k h
      cases k with
      | zero => rfl
      | succ k =>
          have hk := ih (i + 1) k (Nat.lt_of_succ_lt_succ h)
          rw [show i + 1 + k = i + (k + 1) from by omega] at hk
          exact hk

/-- A block takes what is left, up to `BLKSIZE`. -/
theorem getElem_submitPlan (filesize : Int) {i : Nat}
    (h : i < (submitPlan filesize).length) :
    (submitPlan filesize)[i]
      = minUlong (UInt64.ofNat blksize) (bytesLeftAt filesize i) := by
  have hget := getElem_iovecLens filesize (blockCnt filesize).toNat 0 i h
  rwa [Nat.zero_add] at hget

/-! ## The plan of a size -/

theorem blksize_pos : 0 < blksize := by decide

section Size

variable {filesize : Int}

/-- A non-negative `off_t` keeps its value as a `size_t`. -/
theorem toNat_ofInt (h0 : 0 ≤ filesize) (h : filesize < 2 ^ 63) :
    (UInt64.ofInt filesize).toNat = filesize.toNat := by
  rw [UInt64.ofInt, UInt64.toNat_ofNat']
  omega

/-- Both counts start from the size rounded up to blocks. -/
theorem tdiv_add_eq (h0 : 0 ≤ filesize) :
    filesize.tdiv blksize + (if filesize.tmod blksize ≠ 0 then 1 else 0)
      = tileCnt blksize filesize.toNat := by
  obtain ⟨size, rfl⟩ := Int.eq_ofNat_of_zero_le h0
  rw [Int.tdiv_eq_ediv_of_nonneg h0, Int.tmod_eq_emod_of_nonneg h0, tileCnt, blksize]
  by_cases hrem : (size : Int) % (4096 : Nat) ≠ 0
  · rw [if_pos hrem]
    omega
  · rw [if_neg hrem]
    omega

/-- The `size_t` count is exact. -/
theorem toNat_blockCnt (h0 : 0 ≤ filesize) (h : filesize < 2 ^ 63) :
    (blockCnt filesize).toNat = tileCnt blksize filesize.toNat := by
  rw [blockCnt, tdiv_add_eq h0, toNat_ofInt (by omega)]
  · simp
  · rw [tileCnt, blksize]
    omega

/-- What the two conversions to `int` make of the count is never more than
    the count. -/
theorem toInt_readvBlockCnt_le (h0 : 0 ≤ filesize) :
    (readvBlockCnt filesize).toInt ≤ tileCnt blksize filesize.toNat := by
  obtain ⟨size, rfl⟩ := Int.eq_ofNat_of_zero_le h0
  rw [readvBlockCnt, Int.tdiv_eq_ediv_of_nonneg h0, Int.tmod_eq_emod_of_nonneg h0,
    Int32.toInt_add, Int32.toInt_ofInt, tileCnt, blksize, Int.bmod_def, Int.bmod_def]
  by_cases hrem : (size : Int) % (4096 : Nat) > 0
  · rw [if_pos hrem, Int32.toInt_one]
    simp only [Int32.size]
    omega
  · rw [if_neg hrem, Int32.toInt_zero]
    simp only [Int32.size]
    omega

/-- The `int` count is exact when the count fits. -/
theorem toInt_readvBlockCnt (h0 : 0 ≤ filesize)
    (hfit : tileCnt blksize filesize.toNat ≤ 2147483647) :
    (readvBlockCnt filesize).toInt = tileCnt blksize filesize.toNat := by
  obtain ⟨size, rfl⟩ := Int.eq_ofNat_of_zero_le h0
  rw [tileCnt, blksize] at *
  rw [readvBlockCnt, Int.tdiv_eq_ediv_of_nonneg h0, Int.tmod_eq_emod_of_nonneg h0,
    Int32.toInt_add, blksize, Int32.toInt_ofInt_of_le (by omega) (by omega), Int.bmod_def]
  by_cases hrem : (size : Int) % (4096 : Nat) > 0
  · rw [if_pos hrem, Int32.toInt_one]
    omega
  · rw [if_neg hrem, Int32.toInt_zero]
    omega

/-- An `int` count stays below `INT_MAX`. -/
theorem toNat_readvBlockCnt_le (filesize : Int) :
    (readvBlockCnt filesize).toInt.toNat ≤ 2147483647 := by
  have hmax := (readvBlockCnt filesize).toInt_lt
  omega

/-! ## The plans tile the size -/

theorem toNat_ofNat_blksize : (UInt64.ofNat blksize).toNat = blksize :=
  UInt64.toNat_ofNat_of_lt' (by decide)

/-- As long as a whole block is left, counting down does not wrap. -/
theorem toNat_sub_blksize {bytesLeft : UInt64} (h : blksize ≤ bytesLeft.toNat) :
    (bytesLeft - UInt64.ofNat blksize).toNat = bytesLeft.toNat - blksize := by
  rw [UInt64.toNat_sub_of_le, toNat_ofNat_blksize]
  rw [UInt64.le_iff_toNat_le, toNat_ofNat_blksize]
  exact h

/-- The planned lengths are tiles as long as blocks start before the end. -/
theorem iovecLens_eq_tiles :
    ∀ (n : Nat) (bytesLeft : UInt64), n ≤ tileCnt blksize bytesLeft.toNat →
      (iovecLens n bytesLeft).map UInt64.toNat = tiles blksize bytesLeft.toNat n := by
  intro n
  induction n with
  | zero => intro bytesLeft _; rfl
  | succ n ih =>
      intro bytesLeft hn
      rw [iovecLens, List.map_cons, tiles_succ, toNat_minUlong]
      have hnext := tileCnt_sub blksize_pos hn
      cases n with
      | zero => rfl
      | succ n =>
          -- another block starts after this one, so the difference is exact
          have hstart : blksize * 1 < bytesLeft.toNat :=
            (lt_tileCnt blksize_pos).mp (by omega)
          have hfull : blksize ≤ bytesLeft.toNat := by omega
          rw [← toNat_sub_blksize hfull] at hnext
          rw [ih _ hnext, toNat_sub_blksize hfull, toNat_ofNat_blksize]

/-- **TILING, ASYNCHRONOUS**: `submitToSq` plans all tiles of the size. -/
theorem submitPlan_eq_tiles (h0 : 0 ≤ filesize) (h : filesize < 2 ^ 63) :
    (submitPlan filesize).map UInt64.toNat
      = tiles blksize filesize.toNat (tileCnt blksize filesize.toNat) := by
  have hsize := toNat_ofInt h0 h
  rw [submitPlan, toNat_blockCnt h0 h, iovecLens_eq_tiles _ _ (by rw [hsize]), hsize]

/-- **TILING, SYNCHRONOUS**: `read_and_print_file_readv` plans as many tiles of
    the size as its `int` count says. -/
theorem readvPlan_eq_tiles (h0 : 0 ≤ filesize) (h : filesize < 2 ^ 63) :
    (readvPlan filesize).map UInt64.toNat
      = tiles blksize filesize.toNat (readvBlockCnt filesize).toInt.toNat := by
  have hsize := toNat_ofInt h0 h
  have hle := toInt_readvBlockCnt_le h0
  rw [readvPlan, readvLens_eq, iovecLens_eq_tiles _ _ (by rw [hsize]; omega), hsize]

/-- `bytesLeft` has not wrapped when a block is sized. -/
theorem toNat_bytesLeftAt (h0 : 0 ≤ filesize) (h : filesize < 2 ^ 63) :
    ∀ i, i < tileCnt blksize filesize.toNat →
      ((bytesLeftAt filesize i).toNat : Int) = filesize - blksize * i := by
  intro i
  induction i with
  | zero =>
      intro _
      rw [bytesLeftAt, toNat_ofInt h0 h]
      omega
  | succ i ih =>
      intro hi
      have hleft := ih (by omega)
      have hstart : blksize * (i + 1) < filesize.toNat := (lt_tileCnt blksize_pos).mp hi
      rw [Nat.mul_succ] at hstart
      rw [bytesLeftAt, toNat_sub_blksize (by omega), blksize] at *
      omega

/-- **BOTH READERS PLAN THE SAME BLOCKS** for a positive size if and only if
    the number of blocks fits an `int`. -/
theorem readvPlan_eq_submitPlan_iff (filesize : Int) (hpos : 0 < filesize)
    (h : filesize < 2 ^ 63) :
    readvPlan filesize = submitPlan filesize
      ↔ (filesize + 4095) / 4096 ≤ 2147483647 := by
  have h0 : 0 ≤ filesize := Int.le_of_lt hpos
  have hceil : (filesize + 4095) / 4096 = (tileCnt blksize filesize.toNat : Int) := by
    rw [tileCnt, blksize]
    omega
  rw [hceil]
  constructor
  · intro hplan
    have hlen := congrArg List.length hplan
    rw [readvPlan, readvLens_eq, submitPlan, length_iovecLens, length_iovecLens,
      toNat_blockCnt h0 h] at hlen
    have hmax := toNat_readvBlockCnt_le filesize
    omega
  · intro hfit
    have hcnt := toInt_readvBlockCnt h0 (by omega)
    rw [readvPlan, readvLens_eq, submitPlan, toNat_blockCnt h0 h, hcnt, Int.toNat_natCast]

end Size

theorem readvPlan_eq_submitPlan_iff_5000 :
    readvPlan 5000 = submitPlan 5000 ↔ ((5000 : Int) + 4095) / 4096 ≤ 2147483647 :=
  readvPlan_eq_submitPlan_iff 5000 (by decide) (by decide)

/-- A block device of 16 TiB has 2^32 blocks, which an `int` counts as none. -/
theorem readvPlan_ne_submitPlan_16TiB :
    ¬ ∀ filesize : Int, 0 < filesize → filesize < 2 ^ 63 →
        readvPlan filesize = submitPlan filesize := by
  intro h
  have hplan := h 17592186044416 (by decide) (by decide)
  have hlen := congrArg List.length hplan
  rw [readvPlan, readvLens_eq, submitPlan, length_iovecLens, length_iovecLens] at hlen
  exact absurd hlen (by decide)

end CPetBlockPlan
