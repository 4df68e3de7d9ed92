import Bl616cl.Core.Stdlib

/-!
# Printing integers

The integer overloads of `Print::print`. The sink takes every byte, so what an overload returns is
the length of the text it emits; with the text is kept the use that is made of the local buffer.
-/

namespace Bl616cl.Core

open Bl616cl.Lib

/-- A text that was put together in a local buffer. -/
structure Formatted where
  text : List UInt8
  /-- The bytes stored in the buffer, the NUL included. -/
  stored : Nat
  /-- Its size. -/
  size : Nat
  deriving DecidableEq, Repr

def Formatted.Fits (f : Formatted) : Prop := f.stored ≤ f.size

instance (f : Formatted) : Decidable f.Fits := inferInstanceAs (Decidable (_ ≤ _))

/-- The text in a buffer. -/
def Formatted.ofBuffer (size : Nat) (buffer : List UInt8) : Formatted :=
  ⟨cText buffer, buffer.length, size⟩

/-! ## The overloads -/

/-- `*--cursor` until the value is used up; `stored` starts at `cursor`. -/
def printNumberLoop (base value : Nat) (stored : List UInt8) : List UInt8 :=
  let stored := digitChar 'A' (value % base) :: stored
  -- `printNumber` replaces the other bases
  if _h : 1 < base ∧ value / base ≠ 0 then printNumberLoop base (value / base) stored else stored
termination_by value
decreasing_by exact Nat.div_lt_self (Nat.pos_of_ne_zero fun h0 => _h.2 (by simp [h0])) _h.1

def printNumber (value : BitVec 32) (base : UInt8) : Formatted :=
  .ofBuffer (8 * 4 + 1)
    (printNumberLoop (if base.toNat < 2 then 10 else base.toNat) value.toNat [0])

/-- `write(static_cast<uint8_t>(value))`. -/
def writeByte (value : BitVec 32) : Formatted := ⟨[.ofNat value.toNat], 0, 0⟩

def printUnsignedLong (value : BitVec 32) (base : Int) : Formatted :=
  if base = 0 then writeByte value else printNumber value ⟨.ofInt 8 base⟩

def printLong (value : BitVec 32) (base : Int) : Formatted :=
  if base = 0 then writeByte value
  else if base = 10 ∧ value.toInt < 0 then
    { printNumber (-value) 10 with text := minus :: (printNumber (-value) 10).text }
  else printNumber value ⟨.ofInt 8 base⟩

def printUnsignedChar (value : BitVec 8) (base : Int) : Formatted :=
  printUnsignedLong (value.setWidth 32) base

def printInt (value : BitVec 32) (base : Int) : Formatted := printLong value base

def printUnsignedInt (value : BitVec 32) (base : Int) : Formatted := printUnsignedLong value base

/-! ## What they emit -/

theorem printNumberLoop_eq {base : Nat} (hb : 1 < base) (value : Nat) (stored : List UInt8) :
    printNumberLoop base value stored = numeral (digitChar 'A') base value ++ stored := by
  induction value using Nat.strong_induction_on generalizing stored with
  | _ value ih =>
    rw [printNumberLoop, numeral_eq hb]
    by_cases hq : value / base = 0
    · simp [hq]
    · have hlt : value / base < value :=
        Nat.div_lt_self (Nat.pos_of_ne_zero fun h => hq (by simp [h])) hb
      rw [dif_pos ⟨hb, hq⟩, if_neg hq, ih _ hlt]
      simp

theorem length_numeral_word {α : Type*} (digit : Nat → α) {base w : Nat} (hb : 1 < base)
    (hw : 0 < w) (value : BitVec w) : (numeral digit base value.toNat).length ≤ w :=
  length_numeral_le digit hb hw (value.isLt.trans_le (Nat.pow_le_pow_left hb w))

theorem printNumber_eq {base : UInt8} (hb : 1 < base.toNat) (hb' : base.toNat ≤ 36)
    (value : BitVec 32) :
    (printNumber value base).text = numeral (digitChar 'A') base.toNat value.toNat ∧
      (printNumber value base).Fits := by
  unfold printNumber Formatted.ofBuffer Formatted.Fits
  rw [if_neg (by omega), printNumberLoop_eq hb]
  refine ⟨cText_append_zero (zero_notMem_numeral (by simp) hb hb' _), ?_⟩
  have hlen := length_numeral_word (digitChar 'A') hb (by decide) value
  simp only [List.length_append, List.length_singleton]
  omega

end Bl616cl.Core
