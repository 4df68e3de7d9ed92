import Mathlib.Data.Rat.Floor
import Mathlib.Tactic.Linarith

/-!
# Rounding to the nearest integer

`roundEven` rounds a rational that is not negative to the nearest natural number, ties to even.
-/

namespace Bl616cl.Lib

def roundEven (q : ℚ) : Nat :=
  let n := ⌊q⌋₊
  if q - n < 1 / 2 then n else if 1 / 2 < q - n then n + 1 else n + n % 2

/-- Rounding up reaches an even bound from half below it. -/
theorem roundEven_lt_iff {q : ℚ} (hq : 0 ≤ q) {m : Nat} (hm : m % 2 = 0) :
    roundEven q < m ↔ q + 1 / 2 < m := by
  have hlow := Nat.floor_le hq
  have hhigh := Nat.lt_floor_add_one q
  unfold roundEven
  generalize ⌊q⌋₊ = n at hlow hhigh
  dsimp only
  split
  · next hless =>
    constructor
    · intro h
      have hle : ((n + 1 : Nat) : ℚ) ≤ m := by exact_mod_cast h
      push_cast at hle
      linarith
    · intro h
      have hlt : (n : ℚ) < m := by linarith
      exact_mod_cast hlt
  · next hless =>
    split
    · next hmore =>
      constructor
      · intro h
        have hle : ((n + 2 : Nat) : ℚ) ≤ m := by exact_mod_cast h
        push_cast at hle
        linarith
      · intro h
        have hlt : ((n + 1 : Nat) : ℚ) < m := by
          push_cast
          linarith
        exact_mod_cast hlt
    · next hmore =>
      -- a tie: the even neighbour is below the bound if the upper one is
      have htie : q + 1 / 2 = ((n + 1 : Nat) : ℚ) := by
        push_cast
        linarith
      rw [htie, Nat.cast_lt]
      omega

end Bl616cl.Lib
