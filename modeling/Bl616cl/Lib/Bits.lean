import Mathlib.Algebra.Order.Group.Nat
import Mathlib.Data.Nat.Size
import Mathlib.Tactic.Common

/-!
# Bits of machine words

How many bits of a word are set, and how many clear ones it ends in. Counting up by one, the two
change together: `popcount_add_ctz`.
-/

namespace Bl616cl.Lib

/-- How many of the lowest `w` bits are set. -/
def popcount : Nat → Nat → Nat
  | 0, _ => 0
  | w + 1, n => n % 2 + popcount w (n / 2)

/-- How many of the lowest `w` bits are clear before one is set. -/
def ctz : Nat → Nat → Nat
  | 0, _ => 0
  | w + 1, n => if n % 2 = 1 then 0 else ctz w (n / 2) + 1

variable {w n k : Nat}

@[simp] theorem popcount_zero (w : Nat) : popcount w 0 = 0 := by
  induction w with
  | zero => rfl
  | succ w ih => simp [popcount, ih]

/-- The next number has one bit more, less the set ones at the end that it clears. -/
theorem popcount_add_ctz (h : n + 1 < 2 ^ w) :
    popcount w (n + 1) + ctz w (n + 1) = popcount w n + 1 := by
  induction w generalizing n with
  | zero => omega
  | succ w ih =>
    rw [popcount, popcount, ctz]
    rcases Nat.mod_two_eq_zero_or_one n with heven | hodd
    · rw [if_pos (by omega), show (n + 1) / 2 = n / 2 by omega]
      omega
    · rw [if_neg (by omega), show (n + 1) / 2 = n / 2 + 1 by omega]
      have := ih (n := n / 2) (by omega)
      omega

theorem popcount_le (h : n < 2 ^ k) (w : Nat) : popcount w n ≤ k := by
  induction k generalizing n w with
  | zero =>
    obtain rfl : n = 0 := by omega
    simp
  | succ k ih =>
    cases w with
    | zero => exact Nat.zero_le _
    | succ w =>
      have := ih (n := n / 2) (by omega) w
      rw [popcount]
      omega

theorem le_ctz_iff (hpos : 0 < n) (h : n < 2 ^ w) : k ≤ ctz w n ↔ 2 ^ k ∣ n := by
  induction w generalizing n k with
  | zero => omega
  | succ w ih =>
    rw [ctz]
    cases k with
    | zero => simp
    | succ k =>
      split
      · next hodd =>
        have hnot : ¬2 ^ (k + 1) ∣ n := by
          intro hdvd
          have heven : 2 ^ 1 ∣ n := Nat.dvd_trans (Nat.pow_dvd_pow 2 (Nat.le_add_left 1 k)) hdvd
          omega
        simp [hnot]
      · next heven =>
        obtain ⟨m, rfl⟩ : ∃ m, n = 2 * m := ⟨n / 2, by omega⟩
        rw [Nat.mul_div_cancel_left m (by omega), Nat.succ_le_succ_iff, ih (by omega) (by omega),
          pow_succ', Nat.mul_dvd_mul_iff_left (by omega)]

theorem two_pow_ctz_dvd (hpos : 0 < n) (h : n < 2 ^ w) : 2 ^ ctz w n ∣ n :=
  (le_ctz_iff hpos h).1 (Nat.le_refl _)

theorem two_pow_ctz_le (hpos : 0 < n) (h : n < 2 ^ w) : 2 ^ ctz w n ≤ n :=
  Nat.le_of_dvd hpos (two_pow_ctz_dvd hpos h)

/-- Clearing a bit below the lowest set one of a number leaves exactly that many zeros. -/
theorem ctz_sub_two_pow (hpos : 0 < n) (h : n < 2 ^ w) (hk : k < ctz w n) :
    ctz w (n - 2 ^ k) = k := by
  obtain ⟨m, hm⟩ := (le_ctz_iff hpos h).1 hk
  have hpow : 0 < 2 ^ k := Nat.two_pow_pos k
  have hmpos : 0 < m := by
    rcases Nat.eq_zero_or_pos m with rfl | hm'
    · omega
    · exact hm'
  have hsub : n - 2 ^ k = 2 ^ k * (2 * m - 1) := by
    rw [hm, pow_succ, Nat.mul_sub, Nat.mul_one, Nat.mul_assoc]
  have hpos' : 0 < n - 2 ^ k := by
    rw [hsub]
    exact Nat.mul_pos hpow (by omega)
  have hlt' : n - 2 ^ k < 2 ^ w := by omega
  refine Nat.le_antisymm ?_ ?_
  · by_contra hgt
    have hdvd := (le_ctz_iff hpos' hlt').1 (show k + 1 ≤ ctz w (n - 2 ^ k) by omega)
    rw [hsub, pow_succ, Nat.mul_dvd_mul_iff_left hpow] at hdvd
    omega
  · rw [le_ctz_iff hpos' hlt', hsub]
    exact ⟨2 * m - 1, rfl⟩

/-- Clearing the lowest set bit leaves more zeros at the end. -/
theorem ctz_lt_ctz_sub (h : n < 2 ^ w) (hlt : 2 ^ ctz w n < n) :
    ctz w n < ctz w (n - 2 ^ ctz w n) := by
  have hpow := Nat.two_pow_pos (ctz w n)
  obtain ⟨m, hm⟩ := two_pow_ctz_dvd (by omega) h
  have hodd : m % 2 = 1 := by
    by_contra heven
    obtain ⟨j, rfl⟩ : ∃ j, m = 2 * j := ⟨m / 2, by omega⟩
    have hdvd : 2 ^ (ctz w n + 1) ∣ n := ⟨j, by rw [pow_succ, Nat.mul_assoc]; exact hm⟩
    have := (le_ctz_iff (by omega) h).2 hdvd
    omega
  rw [← Nat.succ_le_iff, le_ctz_iff (by omega) (by omega)]
  refine ⟨m / 2, ?_⟩
  calc n - 2 ^ ctz w n = 2 ^ ctz w n * m - 2 ^ ctz w n * 1 := by rw [← hm, Nat.mul_one]
    _ = 2 ^ ctz w n * (2 * (m / 2)) := by rw [← Nat.mul_sub]; congr 1; omega
    _ = 2 ^ (ctz w n + 1) * (m / 2) := by rw [pow_succ, Nat.mul_assoc]

end Bl616cl.Lib
