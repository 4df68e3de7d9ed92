import Mathlib.Algebra.Order.Field.Power
import Mathlib.Tactic.Positivity
import Bl616cl.Lib.Rounding
import Bl616cl.Core.Print

/-!
# Floating-point numbers as text

`dtostrf` in `stdlib_noniso.c` and the two constructors of `String` that call it with a buffer of 40
bytes. `snprintf` rounds `%f` to the nearest, ties to even.
-/

namespace Bl616cl.Core

open Bl616cl.Lib

/-- A finite `double`; every finite `float` is one. Zero has a sign as well. -/
structure Double where
  negative : Bool
  mantissa : Nat
  exponent : Int
  mantissa_lt : mantissa < 2 ^ 53
  le_exponent : -1074 ≤ exponent
  exponent_le : exponent ≤ 971
  deriving DecidableEq, Repr

namespace Double

def magnitude (v : Double) : ℚ := v.mantissa * 2 ^ v.exponent

/-- The bytes of the sign. -/
def sign (v : Double) : List UInt8 := if v.negative then [minus] else []

/-- `%.*f`. -/
def fixedText (v : Double) (precision : Nat) : List UInt8 :=
  let scaled := roundEven (v.magnitude * 10 ^ precision)
  v.sign ++ numeral (digitChar 'a') 10 (scaled / 10 ^ precision) ++
    if precision = 0 then []
    else dot :: (List.range precision).map fun i =>
      digitChar 'a' (scaled / 10 ^ (precision - 1 - i) % 10)

end Double

/-- The field width of a format: a negative one has the flag `-` before it. -/
def pad (width : Int) (text : List UInt8) : List UInt8 :=
  let blanks := List.replicate (width.natAbs - text.length) (UInt8.ofNat ' '.toNat)
  if width < 0 then text ++ blanks else blanks ++ text

/-! ## The conversion -/

/-- `dtostrf`; `width` is a `signed char`. -/
def dtostrf (value : Double) (width : BitVec 8) (precision : UInt8) : List UInt8 :=
  snprintf 64 (pad width.toInt (value.fixedText precision.toNat))

/-- `String(float, decimal_places)` and `String(double, decimal_places)`. -/
def stringFloating (value : Double) (decimalPlaces : UInt8) : Formatted :=
  .ofBuffer 40 (dtostrf value (.ofInt 8 (decimalPlaces.toNat + 2)) decimalPlaces)

/-- There is room for the digits before the point: 36 of them with two places and no sign. -/
def Double.Small (v : Double) (decimalPlaces : UInt8) : Prop :=
  v.sign.length + decimalPlaces.toNat ≤ 37 ∧
    v.magnitude * 10 ^ decimalPlaces.toNat + 1 / 2 <
      10 ^ (39 - v.sign.length - if decimalPlaces.toNat = 0 then 0 else 1)

/-! ## Lengths -/

theorem length_pad (width : Int) (text : List UInt8) :
    (pad width text).length = max width.natAbs text.length := by
  unfold pad
  dsimp only
  split
  · rw [List.length_append, List.length_replicate]
    omega
  · rw [List.length_append, List.length_replicate]
    omega

/-- What is stored in `text` fits exactly if it fits without the bound of 64. -/
theorem fits_iff_length (v : Double) (decimalPlaces : UInt8) :
    (stringFloating v decimalPlaces).Fits ↔
      (BitVec.ofInt 8 (decimalPlaces.toNat + 2)).toInt.natAbs ≤ 39 ∧
        (v.fixedText decimalPlaces.toNat).length ≤ 39 := by
  show (dtostrf _ _ _).length ≤ 40 ↔ _
  unfold dtostrf
  rw [length_snprintf (by decide), length_pad]
  omega

theorem length_sign (v : Double) : v.sign.length ≤ 1 := by
  unfold Double.sign
  split <;> simp

theorem length_fixedText (v : Double) (p : Nat) :
    (v.fixedText p).length = v.sign.length +
      (numeral (digitChar 'a') 10 (roundEven (v.magnitude * 10 ^ p) / 10 ^ p)).length +
      if p = 0 then 0 else p + 1 := by
  unfold Double.fixedText
  rw [List.length_append, List.length_append]
  congr 1
  split <;> simp

theorem magnitude_nonneg (v : Double) : 0 ≤ v.magnitude := by
  unfold Double.magnitude
  positivity

theorem length_integer_le_iff (v : Double) (p : Nat) {k : Nat} (hk : 0 < k) :
    (numeral (digitChar 'a') 10 (roundEven (v.magnitude * 10 ^ p) / 10 ^ p)).length ≤ k ↔
      v.magnitude * 10 ^ p + 1 / 2 < 10 ^ (k + p) := by
  have hnonneg : 0 ≤ v.magnitude * 10 ^ p := mul_nonneg (magnitude_nonneg v) (by positivity)
  have heven : 10 ^ (k + p) % 2 = 0 := by
    obtain ⟨j, hj⟩ : ∃ j, k + p = j + 1 := ⟨k + p - 1, by omega⟩
    rw [hj, Nat.pow_succ]
    omega
  have hround := roundEven_lt_iff hnonneg heven
  rw [length_numeral_le_iff _ (by decide) hk, Nat.div_lt_iff_lt_mul (by positivity), ← Nat.pow_add,
    hround]
  push_cast
  exact Iff.rfl

theorem length_fixedText_le_iff (v : Double) (decimalPlaces : UInt8) :
    (v.fixedText decimalPlaces.toNat).length ≤ 39 ↔ v.Small decimalPlaces := by
  have hsign := length_sign v
  unfold Double.Small
  rw [length_fixedText]
  generalize decimalPlaces.toNat = p
  by_cases hroom : v.sign.length + p ≤ 37
  · -- there is room for a digit before the point
    have hk : 0 < 39 - v.sign.length - if p = 0 then 0 else p + 1 := by
      split <;> omega
    have hexp : 39 - v.sign.length - (if p = 0 then 0 else 1) =
        39 - v.sign.length - (if p = 0 then 0 else p + 1) + p := by
      split <;> omega
    rw [and_iff_right hroom, hexp, ← length_integer_le_iff v p hk]
    omega
  · have hpos := List.length_pos_of_ne_nil (numeral_ne_nil (digitChar 'a')
      (by decide : 1 < 10) (roundEven (v.magnitude * 10 ^ p) / 10 ^ p))
    refine iff_of_false ?_ fun h => hroom h.1
    rw [if_neg (by omega)]
    omega

/-- **Floating**: the bytes that are stored for a number fit their buffer if and only if the number
is small enough for the places. -/
theorem fits_iff_small (v : Double) (decimalPlaces : UInt8) :
    (stringFloating v decimalPlaces).Fits ↔ v.Small decimalPlaces := by
  rw [fits_iff_length, length_fixedText_le_iff]
  refine and_iff_right_of_imp fun h => ?_
  have hplaces := h.1
  rw [BitVec.toInt_ofInt_eq_self (by decide) (by omega) (by omega)]
  omega

/-- `String(1.7014118e38f)`: 2 to the power of 127. -/
theorem not_fits_float : ¬ ∀ (v : Double) (decimalPlaces : UInt8),
    (stringFloating v decimalPlaces).Fits := by
  intro h
  exact absurd (h ⟨false, 1, 127, by decide, by decide, by decide⟩ 2) (by decide +kernel)

end Bl616cl.Core
