import Mathlib.Algebra.Group.Int.Defs
import Mathlib.Algebra.Group.Nat.Defs
import Mathlib.Tactic.Common

/-!
# 32-bit machine words

C's `uint32_t` arithmetic on natural numbers below `2 ^ 32`, and the conversion to `int`.
-/

namespace Bl616cl.Lib

def add32 (a b : Nat) : Nat := (a + b) % 2 ^ 32

def sub32 (a b : Nat) : Nat := (2 ^ 32 + a - b) % 2 ^ 32

/-- `static_cast<int>` of a word. -/
def toInt32 (a : Nat) : Int := if a < 2 ^ 31 then a else (a : Int) - 2 ^ 32

variable {a b : Nat}

theorem add32_of_lt (h : a + b < 2 ^ 32) : add32 a b = a + b := Nat.mod_eq_of_lt h

theorem sub32_of_le (h : b ≤ a) (ha : a < 2 ^ 32) : sub32 a b = a - b := by
  unfold sub32; omega

theorem toInt32_of_lt (h : a < 2 ^ 31) : toInt32 a = a := if_pos h

end Bl616cl.Lib
