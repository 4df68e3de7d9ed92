import Bl616cl.Lib.Bits
import Bl616cl.Lib.Word

/-!
# littlefs: the configuration and small functions

`struct lfs_config` as far as the block device and the index lists use it, with assertions of
`lfs_init` as fields, and the arithmetic of `lfs_util.h`. Two fields are none of its assertions: a
block is smaller than 2 GiB, and the numbers of the blocks are none of those that stand for no
block.
-/

namespace Bl616cl.Lfs

open Bl616cl.Lib

/-- Block numbers that stand for none, and for a file in its directory. -/
def blockNull : Nat := 2 ^ 32 - 1

def blockInline : Nat := 2 ^ 32 - 2

/-- `lfs_config`. -/
structure Config where
  readSize : Nat
  progSize : Nat
  blockSize : Nat
  blockCount : Nat
  cacheSize : Nat
  lookaheadSize : Nat
  metadataMax : Nat
  readSize_pos : 0 < readSize
  progSize_pos : 0 < progSize
  cacheSize_pos : 0 < cacheSize
  lookaheadSize_pos : 0 < lookaheadSize
  readSize_dvd : readSize ∣ cacheSize
  progSize_dvd : progSize ∣ cacheSize
  cacheSize_dvd : cacheSize ∣ blockSize
  /-- Every block fits all the pointers of its index in a list. -/
  blockSize_ge : 128 ≤ blockSize
  blockSize_lt : blockSize < 2 ^ 31
  blockCount_le : blockCount ≤ blockInline
  metadataMax_le : metadataMax ≤ blockSize

/-- `lfs_cfg` of the environment store, on a partition of this size. -/
def lfsCfg (size : Fin (2 ^ 32)) : Config where
  readSize := 256
  progSize := 256
  blockSize := 4096
  blockCount := size / 4096
  cacheSize := 512
  lookaheadSize := 256
  metadataMax := 0
  readSize_pos := by decide
  progSize_pos := by decide
  cacheSize_pos := by decide
  lookaheadSize_pos := by decide
  readSize_dvd := by decide
  progSize_dvd := by decide
  cacheSize_dvd := by decide
  blockSize_ge := by decide
  blockSize_lt := by decide
  blockCount_le := by
    have hsize := size.isLt
    unfold blockInline
    omega
  metadataMax_le := by decide

/-- A configuration with small caches. -/
def smallCfg : Config where
  readSize := 4
  progSize := 4
  blockSize := 128
  blockCount := 8
  cacheSize := 8
  lookaheadSize := 8
  metadataMax := 0
  readSize_pos := by decide
  progSize_pos := by decide
  cacheSize_pos := by decide
  lookaheadSize_pos := by decide
  readSize_dvd := by decide
  progSize_dvd := by decide
  cacheSize_dvd := by decide
  blockSize_ge := by decide
  blockSize_lt := by decide
  blockCount_le := by decide
  metadataMax_le := by decide

inductive Err where
  | io
  | corrupt
  | noent
  | exist
  | notdir
  | isdir
  | notempty
  | badf
  | fbig
  | inval
  | nospc
  | nomem
  | noattr
  | nametoolong
  deriving DecidableEq, Repr

def alignDown (a alignment : Nat) : Nat := a - a % alignment

def alignUp (a alignment : Nat) : Nat := alignDown (a + alignment - 1) alignment

/-- `lfs_alignup`, where the sum may wrap. -/
def alignUp32 (a alignment : Nat) : Nat := alignDown ((a + alignment - 1) % 2 ^ 32) alignment

/-- `32 - __builtin_clz(a - 1)`. -/
def lfsNpw2 (a : Nat) : Nat := (a - 1).size

def lfsCtz (a : Nat) : Nat := ctz 32 a

def lfsPopc (a : Nat) : Nat := popcount 32 a

variable {a n : Nat}

theorem alignDown_le (a n : Nat) : alignDown a n ≤ a := Nat.sub_le _ _

theorem dvd_alignDown (a n : Nat) : n ∣ alignDown a n := Nat.dvd_sub_mod a

theorem lt_alignDown_add (h : 0 < n) (a : Nat) : a < alignDown a n + n := by
  have hmod := Nat.mod_lt a h
  have hle := Nat.mod_le a n
  unfold alignDown
  omega

theorem le_alignUp (h : 0 < n) (a : Nat) : a ≤ alignUp a n := by
  have hlt := lt_alignDown_add h (a + n - 1)
  unfold alignUp
  omega

theorem alignUp32_eq (h : a + n ≤ 2 ^ 32) : alignUp32 a n = alignUp a n := by
  rw [alignUp32, Nat.mod_eq_of_lt (by omega), alignUp]

theorem dvd_alignUp (a n : Nat) : n ∣ alignUp a n := dvd_alignDown _ _

theorem alignUp_le_of_dvd {m : Nat} (h : 0 < n) (hm : n ∣ m) (ha : a ≤ m) : alignUp a n ≤ m := by
  obtain ⟨k, rfl⟩ := hm
  obtain ⟨j, hj⟩ := dvd_alignUp a n
  have hle := alignDown_le (a + n - 1) n
  rw [hj]
  refine Nat.mul_le_mul_left n (Nat.le_of_lt_succ ?_)
  refine Nat.lt_of_mul_lt_mul_left (a := n) ?_
  have hup : n * j ≤ a + n - 1 := hj ▸ hle
  rw [Nat.mul_succ]
  omega

end Bl616cl.Lfs
