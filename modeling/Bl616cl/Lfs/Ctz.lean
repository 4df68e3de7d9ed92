import Mathlib.Data.Nat.Find
import Bl616cl.Lfs.Util

/-!
# littlefs: where a file's bytes lie

A file is a list of blocks in which block `i` starts with `ctz i + 1` pointers to earlier blocks.
`lfs_ctz_index` finds the block and the offset of a position without a walk; `lfsCtzIndex_eq` says
that it finds those of the layout.
-/

namespace Bl616cl.Lfs

open Bl616cl.Lib

variable (c : Config)

/-! ## The layout -/

/-- How many pointers the block with this index starts with. -/
def pointers (i : Nat) : Nat := if i = 0 then 0 else lfsCtz i + 1

/-- The first position in the block. -/
def blockStart : Nat → Nat
  | 0 => 0
  | i + 1 => blockStart i + (c.blockSize - 4 * pointers i)

/-! ## `lfs_ctz_index` -/

/-- The index of the block, and the offset in it. -/
def lfsCtzIndex (off : Nat) : Nat × Nat :=
  let size := off
  let b := c.blockSize - 2 * 4
  let i := size / b
  if i = 0 then (0, off)
  else
    let i := sub32 size (4 * (lfsPopc (i - 1) + 2)) / b
    (i, sub32 (sub32 size (b * i)) (4 * lfsPopc i))

variable {c} {i j pos : Nat}

theorem pointers_le {k : Nat} (hi : i < 2 ^ k) (hk : k ≤ 32) : pointers i ≤ k := by
  unfold pointers
  split
  · omega
  · next hne =>
    have hword : 2 ^ k ≤ 2 ^ 32 := Nat.pow_le_pow_right (by omega) hk
    have hle := two_pow_ctz_le (w := 32) (Nat.pos_of_ne_zero hne) (by omega)
    exact (Nat.pow_lt_pow_iff_right (by omega)).1 (Nat.lt_of_le_of_lt hle hi)

/-- With the pointers of its blocks a file takes eight bytes of each, up to the bits of the last
index. -/
theorem blockStart_succ (hi : i + 1 < 2 ^ 32) :
    blockStart c (i + 1) = (c.blockSize - 8) * (i + 1) + 8 + 4 * lfsPopc i := by
  have hsize := c.blockSize_ge
  induction i with
  | zero =>
    simp only [blockStart, pointers, if_true, lfsPopc, popcount_zero]
    omega
  | succ i ih =>
    have hpop := popcount_add_ctz (w := 32) (n := i) (by omega)
    have hle := pointers_le (i := i + 1) (k := 32) (by omega) (Nat.le_refl _)
    rw [blockStart, ih (by omega), Nat.mul_succ (c.blockSize - 8) (i + 1)]
    simp only [pointers, Nat.succ_ne_zero, if_false, lfsCtz] at hle ⊢
    simp only [lfsPopc]
    omega

theorem le_blockStart (hi : i < 2 ^ 32) : (c.blockSize - 8) * i ≤ blockStart c i := by
  cases i with
  | zero => exact Nat.zero_le _
  | succ i =>
    rw [blockStart_succ hi]
    omega

/-- A position of 32 bits lies in one of the first `2 ^ 26` blocks. -/
theorem index_lt (hi : i < 2 ^ 32) (hpos : blockStart c i ≤ pos) (hlt : pos < 2 ^ 32) :
    i < 2 ^ 26 := by
  have hsize := c.blockSize_ge
  have hstart := le_blockStart (c := c) hi
  have hmul : 120 * i ≤ (c.blockSize - 8) * i := Nat.mul_le_mul_right i (by omega)
  omega

theorem blockStart_mono (h : i ≤ j) : blockStart c i ≤ blockStart c j := by
  induction j with
  | zero =>
    obtain rfl : i = 0 := by omega
    exact Nat.le_refl _
  | succ j ih =>
    rcases Nat.lt_or_ge j i with hlt | hge
    · obtain rfl : i = j + 1 := by omega
      exact Nat.le_refl _
    · exact Nat.le_trans (ih hge) (Nat.le_add_right _ _)

theorem index_le_of_lt (hlo : blockStart c i ≤ pos) (hhi : pos < blockStart c (j + 1)) : i ≤ j := by
  by_contra hgt
  have := blockStart_mono (c := c) (show j + 1 ≤ i by omega)
  omega

/-- The block behind those of a position of 32 bits has room, too. -/
theorem blockStart_lt_succ (hi : i < 2 ^ 27) : blockStart c i < blockStart c (i + 1) := by
  have hle := pointers_le hi (by omega)
  have hsize := c.blockSize_ge
  rw [blockStart]
  omega

theorem div_eq_of_mul_le {b m : Nat} (hlo : b * i ≤ m) (hhi : m < b * i + b) : m / b = i := by
  refine Nat.div_eq_of_lt_le ?_ ?_
  · rwa [Nat.mul_comm]
  · rwa [Nat.succ_mul, Nat.mul_comm]

/-- With eight bytes of each block left out, the quotient is the index or the one behind it. -/
theorem guess_cases {b : Nat} (hpop : lfsPopc i ≤ 26) (hb : 120 ≤ b) (hlo : b * i ≤ pos)
    (hhi : pos < b * (i + 1) + 8 + 4 * lfsPopc i) :
    (pos / b = i ∧ pos < b * i + b) ∨ (pos / b = i + 1 ∧ b * i + b ≤ pos) := by
  rw [Nat.mul_succ] at hhi
  rcases Nat.lt_or_ge pos (b * i + b) with hlt | hge
  · exact .inl ⟨div_eq_of_mul_le hlo hlt, hlt⟩
  · refine .inr ⟨div_eq_of_mul_le ?_ ?_, hge⟩ <;> rw [Nat.mul_succ] <;> omega

/-- `lfs_ctz_index` finds the block of a position and its offset there. -/
theorem lfsCtzIndex_eq (hi : i + 1 < 2 ^ 32) (hlt : pos < 2 ^ 32) (hlo : blockStart c i ≤ pos)
    (hhi : pos < blockStart c (i + 1)) :
    lfsCtzIndex c pos = (i, 4 * pointers i + (pos - blockStart c i)) := by
  have hsize := c.blockSize_ge
  have hpop : lfsPopc i ≤ 26 := popcount_le (index_lt (by omega) hlo hlt) 32
  have hmul := Nat.le_trans (le_blockStart (c := c) (i := i) (by omega)) hlo
  rw [blockStart_succ hi] at hhi
  unfold lfsCtzIndex
  dsimp only
  rw [show c.blockSize - 2 * 4 = c.blockSize - 8 from rfl]
  obtain ⟨b, hb⟩ : ∃ b, c.blockSize - 8 = b := ⟨_, rfl⟩
  rw [hb] at hhi hmul ⊢
  have hguess := guess_cases hpop (by omega) hmul hhi
  cases i with
  | zero =>
    have hzero : lfsPopc 0 = 0 := popcount_zero 32
    rcases hguess with ⟨hg, hless⟩ | ⟨hg, hmore⟩
    · rw [hg, if_pos rfl]
      simp [pointers, blockStart]
    · have hsub : sub32 pos (4 * (lfsPopc 0 + 2)) = pos - 8 := by
        rw [hzero]
        exact sub32_of_le (by omega) hlt
      have hdiv : (pos - 8) / b = 0 := Nat.div_eq_of_lt (by omega)
      rw [hg, if_neg (by omega), Nat.zero_add, Nat.sub_self, hsub, hdiv, Nat.mul_zero, hzero,
        sub32_of_le (Nat.zero_le _) hlt, Nat.sub_zero, Nat.mul_zero,
        sub32_of_le (Nat.zero_le _) hlt]
      simp [pointers, blockStart]
  | succ k =>
    have hstep : lfsPopc (k + 1) + lfsCtz (k + 1) = lfsPopc k + 1 :=
      popcount_add_ctz (w := 32) (by omega)
    rw [blockStart_succ (by omega), hb] at hlo ⊢
    have hdiv : ∃ g, pos / b = g + 1 ∧
        sub32 pos (4 * (lfsPopc g + 2)) / b = k + 1 := by
      rcases hguess with ⟨hg, hless⟩ | ⟨hg, hmore⟩
      · refine ⟨k, hg, ?_⟩
        rw [sub32_of_le (by omega) hlt]
        exact div_eq_of_mul_le (by omega) (by omega)
      · refine ⟨k + 1, hg, ?_⟩
        rw [sub32_of_le (by omega) hlt]
        rw [Nat.mul_succ] at hhi
        exact div_eq_of_mul_le (by omega) (by omega)
    obtain ⟨g, hg, hi⟩ := hdiv
    rw [hg, if_neg (Nat.succ_ne_zero g), Nat.add_sub_cancel, hi, sub32_of_le hmul hlt,
      sub32_of_le (by omega) (by omega)]
    simp only [pointers, Nat.succ_ne_zero, if_false, Prod.mk.injEq, true_and]
    omega

/-! ## All positions -/

/-- Every position lies in a block. -/
theorem exists_block (c : Config) (hlt : pos < 2 ^ 32) :
    ∃ i, i + 1 < 2 ^ 32 ∧ blockStart c i ≤ pos ∧ pos < blockStart c (i + 1) := by
  have hsize := c.blockSize_ge
  have hmul : 120 * 2 ^ 30 ≤ (c.blockSize - 8) * 2 ^ 30 := Nat.mul_le_mul_right _ (by omega)
  have hbig := Nat.le_trans hmul (le_blockStart (c := c) (i := 2 ^ 30) (by omega))
  have hsome : ∃ i, pos < blockStart c (i + 1) := ⟨2 ^ 30 - 1, by
    rw [Nat.sub_add_cancel (by omega)]
    omega⟩
  have hleast := Nat.find_spec hsome
  have hle : Nat.find hsome ≤ 2 ^ 30 - 1 := Nat.find_min' hsome (by
    rw [Nat.sub_add_cancel (by omega)]
    omega)
  refine ⟨Nat.find hsome, by omega, ?_, hleast⟩
  cases hfind : Nat.find hsome with
  | zero => exact Nat.zero_le _
  | succ i => exact Nat.not_lt.1 (Nat.find_min hsome (m := i) (by omega))

end Bl616cl.Lfs
