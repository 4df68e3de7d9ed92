import Mathlib.Logic.Function.Basic
import Bl616cl.Lfs.Util
import Bl616cl.Lib.Bytes
import Bl616cl.Lib.Memory

/-!
# littlefs: blocks

The blocks of the device as the layers above the caches see them: what `lfs_bd_read` delivers, and
what `lfs_bd_erase` and `lfs_bd_prog` leave.
-/

namespace Bl616cl.Lfs

open Bl616cl.Lib

/-- The bytes of every block. -/
abbrev Blocks := Nat → Nat → UInt8

namespace Blocks

variable (d : Blocks)

def read (c : Config) (block off size : Nat) : Except Err (List UInt8) :=
  if off + size > c.blockSize ∨ c.blockCount ≤ block then .error .corrupt
  else .ok (Memory.read (d block) off size)

/-- An erased block holds anything. -/
def erase (block : Nat) (left : Nat → UInt8) : Blocks := Function.update d block left

def prog (block off : Nat) (data : List UInt8) : Blocks :=
  Function.update d block (Memory.write (d block) off data)

/-- The pointer `k` at the start of a block. -/
def pointer (block k : Nat) : Nat := ofLe (Memory.read (d block) (4 * k) 4)

/-- `lfs_bd_read` of a block number. -/
def readPointer (c : Config) (block k : Nat) : Except Err Nat :=
  (d.read c block (4 * k) 4).map ofLe

variable {d} {c : Config} {block b off size k : Nat} {left : Nat → UInt8} {data : List UInt8}

theorem read_eq (hblock : block < c.blockCount) (hoff : off + size ≤ c.blockSize) :
    d.read c block off size = .ok (Memory.read (d block) off size) :=
  if_neg (by omega)

theorem readPointer_eq (hblock : block < c.blockCount) (hk : 4 * k + 4 ≤ c.blockSize) :
    d.readPointer c block k = .ok (d.pointer block k) := by
  rw [readPointer, read_eq hblock hk]
  rfl

@[simp] theorem erase_of_ne (h : b ≠ block) : d.erase block left b = d b :=
  Function.update_of_ne h _ _

@[simp] theorem prog_of_ne (h : b ≠ block) : d.prog block off data b = d b :=
  Function.update_of_ne h _ _

@[simp] theorem erase_self : d.erase block left block = left := Function.update_self _ _ _

@[simp] theorem prog_self : d.prog block off data block = Memory.write (d block) off data :=
  Function.update_self _ _ _

theorem pointer_congr {e : Blocks} (h : d b = e b) : d.pointer b k = e.pointer b k := by
  rw [pointer, pointer, h]

theorem pointer_prog_self {v : Nat} (hv : v < 2 ^ 32) :
    (d.prog block (4 * k) (toLe 4 v)).pointer block k = v := by
  have hread : Memory.read (Memory.write (d block) (4 * k) (toLe 4 v)) (4 * k) (toLe 4 v).length =
      toLe 4 v := Memory.read_write
  rw [length_toLe] at hread
  rw [pointer, prog_self, hread, ofLe_toLe (by omega)]

theorem pointer_prog_of_ne {j v : Nat} (h : j ≠ k) :
    (d.prog block (4 * k) (toLe 4 v)).pointer block j = d.pointer block j := by
  rw [pointer, pointer, prog_self]
  rcases Nat.lt_or_ge j k with hlt | hge
  · rw [Memory.read_write_of_le (by omega)]
  · rw [Memory.read_write_of_ge (by rw [length_toLe]; omega)]

end Blocks

end Bl616cl.Lfs
