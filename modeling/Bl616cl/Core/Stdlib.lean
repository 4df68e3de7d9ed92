import Bl616cl.Lib.Numeral

/-!
# Integers as text

`stdlib_noniso.c`. A conversion is the bytes that it stores, from the start of its buffer on and
with the NUL. `long` has 32 bits. newlib's `itoa` is taken to be `ltoa`.
-/

namespace Bl616cl.Core

open Bl616cl.Lib

/-- `digit < 10 ? '0' + digit : a + digit - 10`. -/
def digitChar (a : Char) (digit : Nat) : UInt8 :=
  if digit < 10 then .ofNat ('0'.toNat + digit) else .ofNat (a.toNat + digit - 10)

/-- `'-'`. -/
def minus : UInt8 := .ofNat '-'.toNat

/-- `'.'`. -/
def dot : UInt8 := .ofNat '.'.toNat

/-- A buffer up to its first NUL. -/
def cText (buffer : List UInt8) : List UInt8 := buffer.takeWhile (· ≠ 0)

/-- `snprintf` of a text into a buffer of `size` bytes. -/
def snprintf (size : Nat) (text : List UInt8) : List UInt8 :=
  if size = 0 then [] else text.take (size - 1) ++ [0]

/-! ## The conversions -/

/-- The bytes at `begin` and `end` change places until the two meet. -/
def reverse (buffer : List UInt8) (first last : Nat) : List UInt8 :=
  if first < last then
    let value := buffer.getD first 0
    reverse ((buffer.set first (buffer.getD last 0)).set last value) (first + 1) (last - 1)
  else buffer
termination_by last - first

/-- The digits in `ultoa`, behind what `buffer` has up to `cursor`. -/
def ultoaLoop (base value : Nat) (buffer : List UInt8) : List UInt8 :=
  let buffer := buffer ++ [digitChar 'a' (value % base)]
  -- `ultoa` has returned already for the other bases
  if _h : 1 < base ∧ value / base ≠ 0 then ultoaLoop base (value / base) buffer else buffer
termination_by value
decreasing_by exact Nat.div_lt_self (Nat.pos_of_ne_zero fun h0 => _h.2 (by simp [h0])) _h.1

def ultoa (value : BitVec 32) (base : Int) : List UInt8 :=
  if base < 2 ∨ base > 36 then [0]
  else
    let buffer := ultoaLoop base.toNat value.toNat []
    reverse (buffer ++ [0]) 0 (buffer.length - 1)

def ltoa (value : BitVec 32) (base : Int) : List UInt8 :=
  if value.toInt < 0 ∧ base = 10 then minus :: ultoa (-value) base else ultoa value base

def utoa (value : BitVec 32) (base : Int) : List UInt8 := ultoa value base

def itoa (value : BitVec 32) (base : Int) : List UInt8 := ltoa value base

/-! ## Digits -/

/-- What a digit of a base up to 36 is worth, in either case. -/
def digitValue (c : UInt8) : Nat :=
  if c.toNat < 65 then c.toNat - 48 else if c.toNat < 97 then c.toNat - 55 else c.toNat - 87

/-- The digits of a conversion start their letters at `'a'`, those of `printNumber` at `'A'`. -/
theorem digitChar_spec {a : Char} {d : Nat} (ha : a ∈ ['a', 'A']) (hd : d < 36) :
    digitValue (digitChar a d) = d ∧ digitChar a d ≠ 0 ∧ digitChar a d ≠ minus := by
  have hlower : ∀ e ∈ List.range 36, digitValue (digitChar 'a' e) = e ∧
      digitChar 'a' e ≠ 0 ∧ digitChar 'a' e ≠ minus := by decide
  have hupper : ∀ e ∈ List.range 36, digitValue (digitChar 'A' e) = e ∧
      digitChar 'A' e ≠ 0 ∧ digitChar 'A' e ≠ minus := by decide
  rcases List.mem_pair.mp ha with rfl | rfl
  · exact hlower d (List.mem_range.mpr hd)
  · exact hupper d (List.mem_range.mpr hd)

/-! ## What they store -/

theorem cText_append_zero {text : List UInt8} (h : 0 ∉ text) : cText (text ++ [0]) = text := by
  unfold cText
  rw [List.takeWhile_append_of_pos]
  · simp
  · intro c hc
    simpa using fun h0 : c = 0 => h (h0 ▸ hc)

theorem snprintf_of_lt {size : Nat} {text : List UInt8} (h : text.length < size) :
    snprintf size text = text ++ [0] := by
  unfold snprintf
  rw [if_neg (by omega), List.take_of_length_le (by omega)]

theorem length_snprintf {size : Nat} (h : 0 < size) (text : List UInt8) :
    (snprintf size text).length = min size (text.length + 1) := by
  unfold snprintf
  rw [if_neg (by omega), List.length_append, List.length_take, List.length_singleton]
  omega

theorem zero_notMem_numeral {a : Char} (ha : a ∈ ['a', 'A']) {b : Nat} (hb : 1 < b) (hb' : b ≤ 36)
    (n : Nat) : 0 ∉ numeral (digitChar a) b n := by
  intro h
  obtain ⟨d, hd, h0⟩ := mem_numeral hb h
  exact (digitChar_spec ha (by omega)).2.1 h0.symm

theorem reverse_step (pre mid post : List UInt8) (a b : UInt8) :
    reverse (pre ++ a :: (mid ++ b :: post)) pre.length (pre.length + mid.length + 1) =
      reverse (pre ++ b :: (mid ++ a :: post)) (pre.length + 1) (pre.length + mid.length) := by
  have hlast : pre.length + mid.length + 1 = (pre ++ b :: mid).length := by
    simp [Nat.add_assoc]
  have hfirst : (pre ++ a :: (mid ++ b :: post)).getD pre.length 0 = a := by simp
  have hend : (pre ++ a :: (mid ++ b :: post)).getD (pre.length + mid.length + 1) 0 = b := by
    rw [show pre.length + mid.length + 1 = (pre ++ a :: mid).length by simp [Nat.add_assoc],
      show pre ++ a :: (mid ++ b :: post) = (pre ++ a :: mid) ++ b :: post by simp]
    simp
  rw [reverse, if_pos (by omega), hfirst, hend]
  have hset : ((pre ++ a :: (mid ++ b :: post)).set pre.length b).set
      (pre.length + mid.length + 1) a = pre ++ b :: (mid ++ a :: post) := by
    rw [hlast]
    simp
  simp only [hset]
  rfl

/-- Induction on the part that is still to be reversed, from both of its ends. -/
theorem reverse_eq (pre mid post : List UInt8) :
    reverse (pre ++ (mid ++ post)) pre.length (pre.length + mid.length - 1) =
      pre ++ (mid.reverse ++ post) := by
  induction mid using List.bidirectionalRec generalizing pre post with
  | nil => rw [reverse, if_neg (by simp)]; rfl
  | singleton a => rw [reverse, if_neg (by simp)]; rfl
  | cons_append a mid b ih =>
    have hlen : pre.length + (a :: (mid ++ [b])).length - 1 = pre.length + mid.length + 1 := by
      simp [Nat.add_assoc]
    have hlen' : (pre ++ [b]).length + mid.length - 1 = pre.length + mid.length := by
      simp only [List.length_append, List.length_singleton]
      omega
    have hih := ih (pre ++ [b]) (a :: post)
    rw [hlen', List.length_append, List.length_singleton] at hih
    rw [hlen]
    simpa using (reverse_step pre mid post a b).trans (by simpa using hih)

/-- The loop stores the numeral from its last digit on. -/
theorem ultoaLoop_eq {base : Nat} (hb : 1 < base) (value : Nat) (buffer : List UInt8) :
    ultoaLoop base value buffer = buffer ++ (numeral (digitChar 'a') base value).reverse := by
  induction value using Nat.strong_induction_on generalizing buffer with
  | _ value ih =>
    rw [ultoaLoop, numeral_eq hb]
    by_cases hq : value / base = 0
    · simp [hq]
    · have hlt : value / base < value :=
        Nat.div_lt_self (Nat.pos_of_ne_zero fun h => hq (by simp [h])) hb
      rw [dif_pos ⟨hb, hq⟩, if_neg hq, ih _ hlt]
      simp

theorem ultoa_eq {base : Nat} (hb : 1 < base) (hb' : base ≤ 36) (value : BitVec 32) :
    ultoa value base = numeral (digitChar 'a') base value.toNat ++ [0] := by
  have hrange : ¬ ((base : Int) < 2 ∨ (base : Int) > 36) := by omega
  unfold ultoa
  rw [if_neg hrange, Int.toNat_natCast, ultoaLoop_eq hb, List.nil_append]
  have hrev := reverse_eq [] (numeral (digitChar 'a') base value.toNat).reverse [0]
  simpa using hrev

end Bl616cl.Core
