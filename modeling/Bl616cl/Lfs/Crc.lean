import Bl616cl.Lib.Crc
import Bl616cl.Lib.Bytes

/-!
# littlefs: the checksum

`lfs_crc` goes by half bytes and a table of 16 words. It is the usual reflected 32-bit checksum.
-/

namespace Bl616cl.Lfs

open Bl616cl.Lib

def rtable : List (BitVec 32) :=
  [0x00000000, 0x1db71064, 0x3b6e20c8, 0x26d930ac,
    0x76dc4190, 0x6b6b51f4, 0x4db26158, 0x5005713c,
    0xedb88320, 0xf00f9344, 0xd6d6a3e8, 0xcb61b38c,
    0x9b64c2b0, 0x86d3d2d4, 0xa00ae278, 0xbdbdf21c]

def crcHalf (crc x : BitVec 32) : BitVec 32 :=
  crc >>> 4 ^^^ rtable.getD ((crc ^^^ x) &&& 0xf).toNat 0

def crcByte (crc : BitVec 32) (data : UInt8) : BitVec 32 :=
  let data := data.toBitVec.setWidth 32
  crcHalf (crcHalf crc (data >>> 0)) (data >>> 4)

def lfsCrc (crc : BitVec 32) (data : List UInt8) : BitVec 32 := data.foldl crcByte crc

/-- The polynomial, its highest coefficient in the lowest bit. -/
def crcPoly : BitVec 32 := 0xedb88320

/-- The bits of a byte, the lowest one first. -/
def bits (b : UInt8) : List Bool := (List.range 8).map b.toBitVec.getLsbD

variable {crc x : BitVec 32} {data a b : List UInt8}

theorem lfsCrc_append : lfsCrc crc (a ++ b) = lfsCrc (lfsCrc crc a) b := List.foldl_append

/-- The table has what four steps make of a half byte. -/
theorem rtable_eq : ∀ i : Fin 16, rtable.getD i 0 = Crc.idle crcPoly 4 (.ofNat 32 i) := by
  decide

theorem getLsbD_mask (i : Nat) : (0xf : BitVec 32).getLsbD i = decide (i < 4) := by
  have hbit := Nat.testBit_two_pow_sub_one 4 i
  change (BitVec.ofNat 32 (2 ^ 4 - 1)).getLsbD i = _
  rw [BitVec.getLsbD_ofNat, hbit]
  by_cases h : i < 4
  · simp [h]
    omega
  · simp [h]

theorem rtable_getD {v : BitVec 32} :
    rtable.getD (v &&& 0xf).toNat 0 = Crc.idle crcPoly 4 (v &&& 0xf) := by
  have hlt : (v &&& 0xf).toNat < 16 := by
    rw [BitVec.toNat_and]
    exact Nat.and_lt_two_pow _ (n := 4) (by decide)
  have h := rtable_eq ⟨_, hlt⟩
  rwa [BitVec.ofNat_toNat, BitVec.setWidth_eq] at h

/-- A round of the loop is four steps. -/
theorem crcHalf_eq : crcHalf crc x = Crc.idle crcPoly 4 (crc ^^^ (x &&& 0xf)) := by
  have hsplit : crc ^^^ (x &&& 0xf) =
      (crc &&& ~~~0xf) ^^^ ((crc ^^^ x) &&& 0xf) := by
    apply BitVec.eq_of_getLsbD_eq
    intro i hi
    simp only [BitVec.getLsbD_xor, BitVec.getLsbD_and, BitVec.getLsbD_not, getLsbD_mask]
    by_cases h : i < 4 <;> simp [h, hi]
  have hhigh : Crc.idle crcPoly 4 (crc &&& ~~~0xf) = crc >>> 4 := by
    rw [Crc.idle_shift]
    · apply BitVec.eq_of_getLsbD_eq
      intro i hi
      simp only [BitVec.getLsbD_ushiftRight, BitVec.getLsbD_and, BitVec.getLsbD_not, getLsbD_mask]
      rcases Nat.lt_or_ge (4 + i) 32 with h | h
      · simp [h]
      · simp [BitVec.getLsbD_of_ge _ _ h]
    · intro i hi
      simp only [BitVec.getLsbD_and, BitVec.getLsbD_not, getLsbD_mask]
      simp [hi]
  rw [hsplit, Crc.idle_xor, hhigh, crcHalf, rtable_getD]

theorem load_range (f : Nat → Bool) {n i : Nat} (hi : i < 32) :
    (Crc.load 32 ((List.range n).map f)).getLsbD i = (decide (i < n) && f i) := by
  rw [Crc.getLsbD_load hi, List.getD_eq_getElem?_getD, List.getElem?_map]
  by_cases h : i < n
  · simp [h]
  · simp [h]

theorem crcByte_eq {b : UInt8} : crcByte crc b = Crc.run crcPoly crc (bits b) := by
  have hsplit : bits b = (List.range 4).map b.toBitVec.getLsbD ++
      (List.range 4).map (fun i => b.toBitVec.getLsbD (4 + i)) := rfl
  have hlow : b.toBitVec.setWidth 32 >>> 0 &&& 0xf =
      Crc.load 32 ((List.range 4).map b.toBitVec.getLsbD) := by
    apply BitVec.eq_of_getLsbD_eq
    intro i hi
    rw [load_range _ hi, BitVec.getLsbD_and, getLsbD_mask]
    simp [hi, Bool.and_comm]
  have hhigh : b.toBitVec.setWidth 32 >>> 4 &&& 0xf =
      Crc.load 32 ((List.range 4).map fun i => b.toBitVec.getLsbD (4 + i)) := by
    apply BitVec.eq_of_getLsbD_eq
    intro i hi
    rw [load_range _ hi, BitVec.getLsbD_and, getLsbD_mask]
    by_cases h : i < 4
    · simp [h]
      omega
    · simp [h]
  rw [hsplit, Crc.run_append, Crc.run_eq_idle (by simp), Crc.run_eq_idle (by simp), ← hlow,
    ← hhigh, crcByte, crcHalf_eq, crcHalf_eq]
  rfl

theorem lfsCrc_eq : lfsCrc crc data = Crc.run crcPoly crc (data.flatMap bits) := by
  induction data generalizing crc with
  | nil => rfl
  | cons b data ih =>
    rw [List.flatMap_cons, Crc.run_append, ← crcByte_eq, ← ih]
    rfl

/-- The table serves the bitwise checksum, whatever the data. So whatever happens to at most 32
bits in a row is noticed. -/
theorem lfsCrc_detects (crc : BitVec 32) (a : List UInt8) :
    lfsCrc crc a = Crc.run crcPoly crc (a.flatMap bits) ∧
      ∀ b p q u v, a.flatMap bits = p ++ u ++ q → b.flatMap bits = p ++ v ++ q →
        u.length = v.length → u.length ≤ 32 → u ≠ v → lfsCrc crc a ≠ lfsCrc crc b := by
  refine ⟨lfsCrc_eq, fun b p q u v ha hb hlen hmax hne heq => ?_⟩
  rw [lfsCrc_eq, lfsCrc_eq, ha, hb] at heq
  exact hne (Crc.burst (by decide) hlen hmax heq)

/-- The check value of this checksum. -/
example : ~~~lfsCrc 0xffffffff [0x31, 0x32, 0x33, 0x34, 0x35, 0x36, 0x37, 0x38, 0x39] =
    0xcbf43926 := by
  decide

end Bl616cl.Lfs
