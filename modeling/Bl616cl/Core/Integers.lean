import Bl616cl.Core.Print

/-!
# `String(value, base)` and `print(value, base)`

The constructors of `String` from integers beside the overloads of `Print::print`. `int` and `long`
have 32 bits and `char` is unsigned, as on RISC-V.
-/

namespace Bl616cl.Core

open Bl616cl.Lib

/-! ## Integral types -/

inductive Integral where
  | bool
  | char
  | signedChar
  | unsignedChar
  | short
  | unsignedShort
  | int
  | unsignedInt
  | long
  | unsignedLong
  | longLong
  | unsignedLongLong
  deriving DecidableEq, Repr

namespace Integral

def bits : Integral → Nat
  | bool => 1
  | char | signedChar | unsignedChar => 8
  | short | unsignedShort => 16
  | int | unsignedInt | long | unsignedLong => 32
  | longLong | unsignedLongLong => 64

def signed : Integral → Bool
  | signedChar | short | int | long | longLong => true
  | bool | char | unsignedChar | unsignedShort | unsignedInt | unsignedLong | unsignedLongLong =>
    false

/-- The width after promotion. -/
def promoted (t : Integral) : Nat := max 32 t.bits

def min (t : Integral) : Int := if t.signed then -2 ^ (t.bits - 1) else 0

def max (t : Integral) : Int := if t.signed then 2 ^ (t.bits - 1) - 1 else 2 ^ t.bits - 1

/-- The values of the type. -/
structure Value (t : Integral) where
  val : Int
  ge : t.min ≤ val
  le : val ≤ t.max
  deriving DecidableEq, Repr

end Integral

/-- The bases. -/
structure Radix where
  val : Nat
  ge : 2 ≤ val
  le : val ≤ 36
  deriving DecidableEq, Repr

/-! ## The constructors -/

def stringUnsignedChar (value : BitVec 8) (base : UInt8) : Formatted :=
  .ofBuffer (1 + 8 * 1) (utoa (value.setWidth 32) base.toNat)

def stringInt (value : BitVec 32) (base : UInt8) : Formatted :=
  .ofBuffer (2 + 8 * 4) (itoa value base.toNat)

def stringUnsignedInt (value : BitVec 32) (base : UInt8) : Formatted :=
  .ofBuffer (1 + 8 * 4) (utoa value base.toNat)

def stringLong (value : BitVec 32) (base : UInt8) : Formatted :=
  .ofBuffer (2 + 8 * 4) (ltoa value base.toNat)

def stringUnsignedLong (value : BitVec 32) (base : UInt8) : Formatted :=
  .ofBuffer (1 + 8 * 4) (ultoa value base.toNat)

/-- `%d` and its kin. -/
def decimalText (value : Int) : List UInt8 :=
  (if value < 0 then [minus] else []) ++ numeral (digitChar 'a') 10 value.natAbs

def stringLongLong (value : BitVec 64) (_base : UInt8) : Formatted :=
  .ofBuffer (2 + 8 * 8) (snprintf (2 + 8 * 8) (decimalText value.toInt))

def stringUnsignedLongLong (value : BitVec 64) (_base : UInt8) : Formatted :=
  .ofBuffer (1 + 8 * 8) (snprintf (1 + 8 * 8) (decimalText value.toNat))

namespace Integral

/-- `String(value, base)`: the narrower types are promoted to `int`. -/
def string (t : Integral) (value : Int) (base : UInt8) : Formatted :=
  match t with
  | bool | char | signedChar | short | unsignedShort | int => stringInt (.ofInt 32 value) base
  | unsignedChar => stringUnsignedChar (.ofInt 8 value) base
  | unsignedInt => stringUnsignedInt (.ofInt 32 value) base
  | long => stringLong (.ofInt 32 value) base
  | unsignedLong => stringUnsignedLong (.ofInt 32 value) base
  | longLong => stringLongLong (.ofInt 64 value) base
  | unsignedLongLong => stringUnsignedLongLong (.ofInt 64 value) base

/-- `print(value, base)`; no overload is the best one for the 64-bit types. -/
def print (t : Integral) (value : Int) (base : Int) : Option Formatted :=
  match t with
  | bool | char | signedChar | short | unsignedShort | int => some (printInt (.ofInt 32 value) base)
  | unsignedChar => some (printUnsignedChar (.ofInt 8 value) base)
  | unsignedInt => some (printUnsignedInt (.ofInt 32 value) base)
  | long => some (printLong (.ofInt 32 value) base)
  | unsignedLong => some (printUnsignedLong (.ofInt 32 value) base)
  | longLong | unsignedLongLong => none

/-! ## The property -/

/-- The numeral of a value: with a sign in base 10, of its two's complement in other bases. -/
def integerText (bits : Nat) (value : Int) (base : Nat) : List UInt8 :=
  if value < 0 ∧ base = 10 then minus :: numeral (digitChar 'a') 10 value.natAbs
  else numeral (digitChar 'a') base (value % 2 ^ bits).toNat

/-- `tolower`. -/
def lower (c : UInt8) : UInt8 := if 65 ≤ c ∧ c ≤ 90 then c + 32 else c

structure Correct (t : Integral) (v : t.Value) (b : Radix) : Prop where
  text : (t.string v.val (.ofNat b.val)).text = integerText t.promoted v.val b.val
  fits : (t.string v.val (.ofNat b.val)).Fits
  print : ∀ p ∈ t.print v.val b.val, p.text.map lower = integerText t.promoted v.val b.val ∧ p.Fits
  same : ∀ p ∈ t.print v.val b.val, p.text.map lower = (t.string v.val (.ofNat b.val)).text

/-- The 64-bit types are written in base 10 whatever the base is. -/
def RightBase (t : Integral) (v : t.Value) (b : Radix) : Prop :=
  t.bits = 64 → b.val = 10 ∨ (0 ≤ v.val ∧ v.val < b.val ∧ v.val < 10)

end Integral

/-! ## Texts of integers -/

open Integral

section Words

variable {b : Nat}

theorem lower_digitChar {d : Nat} (hd : d < 36) : lower (digitChar 'A' d) = digitChar 'a' d := by
  have hall : ∀ e ∈ List.range 36, lower (digitChar 'A' e) = digitChar 'a' e := by decide
  exact hall d (List.mem_range.mpr hd)

theorem map_lower_numeral (hb : 1 < b) (hb' : b ≤ 36) (n : Nat) :
    (numeral (digitChar 'A') b n).map lower = numeral (digitChar 'a') b n := by
  rw [map_numeral]
  exact numeral_congr _ hb (fun d hd => lower_digitChar (by omega)) n

theorem minus_notMem_numeral (hb : 1 < b) (hb' : b ≤ 36) (n : Nat) :
    minus ∉ numeral (digitChar 'a') b n := by
  intro h
  obtain ⟨d, hd, hminus⟩ := mem_numeral hb h
  exact (digitChar_spec (by simp) (by omega)).2.2 hminus.symm

theorem integerText_natCast {w n : Nat} (h : n < 2 ^ w) :
    integerText w n b = numeral (digitChar 'a') b n := by
  have hmod : ((n : Int) % 2 ^ w).toNat = n := by
    rw [Int.emod_eq_of_lt (by omega) (by exact_mod_cast h), Int.toNat_natCast]
  unfold integerText
  rw [if_neg (by omega), hmod]

theorem zero_notMem_integerText (hb : 1 < b) (hb' : b ≤ 36) (w : Nat) (value : Int) :
    0 ∉ integerText w value b := by
  unfold integerText
  split
  · rw [List.mem_cons, not_or]
    exact ⟨by decide, zero_notMem_numeral (by simp) (by omega) (by omega) _⟩
  · exact zero_notMem_numeral (by simp) hb hb' _

/-- A text is no longer than the word has bits, with a sign in base 10. -/
theorem length_integerText (hb : 1 < b) {w : Nat} (hw : 0 < w) {value : Int}
    (h : value.natAbs < 2 ^ w) : (integerText w value b).length ≤ w + 1 := by
  unfold integerText
  split
  · have hten : value.natAbs < 10 ^ w := h.trans_le (Nat.pow_le_pow_left (by decide) w)
    have hlen := length_numeral_le (digitChar 'a') (by decide : 1 < 10) hw hten
    simp only [List.length_cons]
    omega
  · have hpos : (0 : Int) < 2 ^ w := by positivity
    have hlt : (value % 2 ^ w).toNat < 2 ^ w := by
      zify
      rw [Int.toNat_of_nonneg (Int.emod_nonneg _ hpos.ne')]
      exact Int.emod_lt_of_pos _ hpos
    have hlen := length_numeral_le (digitChar 'a') hb hw
      (hlt.trans_le (Nat.pow_le_pow_left hb w))
    omega

theorem natAbs_toInt_lt (x : BitVec 32) : x.toInt.natAbs < 2 ^ 32 := by
  have hle := BitVec.le_toInt x
  have hlt := BitVec.toInt_lt (x := x)
  omega

theorem toNat_neg_of_neg {x : BitVec 32} (h : x.toInt < 0) : (-x).toNat = x.toInt.natAbs := by
  have hx := x.isLt
  rw [BitVec.toInt_eq_toNat_cond] at h ⊢
  rw [BitVec.toNat_neg]
  split at h
  · omega
  · next hcond =>
    rw [if_neg hcond]
    omega

theorem toNat_eq_toInt_emod (x : BitVec 32) : (x.toInt % 2 ^ 32).toNat = x.toNat := by
  have hx := x.isLt
  rw [BitVec.toInt_eq_toNat_cond]
  split <;> omega

theorem ultoa_text (hb : 1 < b) (hb' : b ≤ 36) (x : BitVec 32) :
    ultoa x b = integerText 32 x.toNat b ++ [0] := by
  rw [ultoa_eq hb hb', integerText_natCast x.isLt]

theorem ltoa_text (hb : 1 < b) (hb' : b ≤ 36) (x : BitVec 32) :
    ltoa x b = integerText 32 x.toInt b ++ [0] := by
  unfold ltoa integerText
  split
  · next h =>
    have hten : b = 10 := by omega
    subst hten
    rw [if_pos ⟨h.1, rfl⟩, ultoa_eq hb hb', toNat_neg_of_neg h.1]
    rfl
  · next h =>
    rw [if_neg (by omega), ultoa_eq hb hb', toNat_eq_toInt_emod]

theorem ofBuffer_eq {text : List UInt8} (h : 0 ∉ text) {size : Nat} (hlen : text.length < size) :
    (Formatted.ofBuffer size (text ++ [0])).text = text ∧
      (Formatted.ofBuffer size (text ++ [0])).Fits := by
  refine ⟨cText_append_zero h, ?_⟩
  show (text ++ [0]).length ≤ size
  simpa using hlen

/-! ## The overloads -/

theorem toNat_ofNat_base (hb' : b ≤ 36) : (UInt8.ofNat b).toNat = b := by
  rw [UInt8.toNat_ofNat', Nat.mod_eq_of_lt (by omega)]

theorem stringInt_eq (hb : 1 < b) (hb' : b ≤ 36) (x : BitVec 32) :
    (stringInt x (.ofNat b)).text = integerText 32 x.toInt b ∧ (stringInt x (.ofNat b)).Fits := by
  have hlen := length_integerText hb (by decide : 0 < 32) (natAbs_toInt_lt x)
  unfold stringInt itoa
  rw [toNat_ofNat_base hb', ltoa_text hb hb']
  exact ofBuffer_eq (zero_notMem_integerText hb hb' _ _) (by omega)

theorem stringUnsigned_eq (hb : 1 < b) (hb' : b ≤ 36) {w size : Nat} (hw : 0 < w) (x : BitVec 32)
    (hx : x.toNat < 2 ^ w) (hsize : w < size) :
    (Formatted.ofBuffer size (ultoa x b)).text = integerText 32 x.toNat b ∧
      (Formatted.ofBuffer size (ultoa x b)).Fits := by
  have hlen := length_numeral_le (digitChar 'a') hb hw (hx.trans_le (Nat.pow_le_pow_left hb w))
  rw [← integerText_natCast x.isLt] at hlen
  rw [ultoa_text hb hb']
  exact ofBuffer_eq (zero_notMem_integerText hb hb' _ _) (by omega)

theorem toNat_ofInt_base (hb' : b ≤ 36) : (⟨.ofInt 8 b⟩ : UInt8).toNat = b := by
  show (BitVec.ofInt 8 b).toNat = b
  rw [BitVec.toNat_ofInt]
  omega

theorem printNumber_lower (hb : 1 < b) (hb' : b ≤ 36) (x : BitVec 32) :
    (printNumber x ⟨.ofInt 8 b⟩).text.map lower = numeral (digitChar 'a') b x.toNat ∧
      (printNumber x ⟨.ofInt 8 b⟩).Fits := by
  have hbase := toNat_ofInt_base hb'
  obtain ⟨htext, hfits⟩ :=
    printNumber_eq (hbase.symm ▸ hb) (hbase.symm ▸ hb') x
  rw [htext, hbase]
  exact ⟨map_lower_numeral hb hb' _, hfits⟩

theorem printUnsignedLong_eq (hb : 1 < b) (hb' : b ≤ 36) (x : BitVec 32) :
    (printUnsignedLong x b).text.map lower = integerText 32 x.toNat b ∧
      (printUnsignedLong x b).Fits := by
  unfold printUnsignedLong
  rw [if_neg (by omega), integerText_natCast x.isLt]
  exact printNumber_lower hb hb' x

theorem printLong_eq (hb : 1 < b) (hb' : b ≤ 36) (x : BitVec 32) :
    (printLong x b).text.map lower = integerText 32 x.toInt b ∧ (printLong x b).Fits := by
  unfold printLong integerText
  rw [if_neg (by omega)]
  by_cases hneg : (b : Int) = 10 ∧ x.toInt < 0
  · obtain ⟨htext, hfits⟩ := printNumber_lower (b := 10) (by decide) (by decide) (-x)
    rw [if_pos hneg, if_pos (by omega), ← toNat_neg_of_neg hneg.2]
    refine ⟨?_, hfits⟩
    rw [← htext]
    rfl
  · rw [if_neg hneg, if_neg (by omega), toNat_eq_toInt_emod]
    exact printNumber_lower hb hb' x

theorem decimalText_eq {w : Nat} {value : Int} (h : value < 2 ^ w) :
    decimalText value = integerText w value 10 := by
  unfold decimalText integerText
  split
  · next hneg => rw [if_pos ⟨hneg, rfl⟩]; rfl
  · next hneg =>
    rw [if_neg (by omega), Int.emod_eq_of_lt (by omega) h, List.nil_append]
    congr 1
    omega

theorem snprintf_decimalText {size : Nat} (hsize : 65 ≤ size) {value : Int}
    (hlow : -2 ^ 63 ≤ value) (hhigh : value < 2 ^ 64) :
    (Formatted.ofBuffer size (snprintf size (decimalText value))).text = integerText 64 value 10 ∧
      (Formatted.ofBuffer size (snprintf size (decimalText value))).Fits := by
  have hlen : (decimalText value).length ≤ 21 := by
    have hten : value.natAbs < 10 ^ 20 := by omega
    have hnum := length_numeral_le (digitChar 'a') (by decide : 1 < 10) (by decide : 0 < 20) hten
    unfold decimalText
    split
    · simp only [List.length_append, List.length_singleton]
      omega
    · simp only [List.nil_append]
      omega
  rw [snprintf_of_lt (by omega), decimalText_eq hhigh]
  rw [decimalText_eq hhigh] at hlen
  exact ofBuffer_eq (zero_notMem_integerText (by decide) (by decide) _ _) (by omega)

/-- Base 10 is the right one for no other text. -/
theorem integerText_ten_eq_iff (hb : 1 < b) (hb' : b ≤ 36) {value : Int} (h : value < 2 ^ 64) :
    integerText 64 value 10 = integerText 64 value b ↔
      b = 10 ∨ (0 ≤ value ∧ value < b ∧ value < 10) := by
  by_cases hten : b = 10
  · simp [hten]
  rw [or_iff_right hten]
  by_cases hneg : value < 0
  · refine iff_of_false (fun heq => ?_) (by omega)
    refine minus_notMem_numeral hb hb' (value % 2 ^ 64).toNat ?_
    unfold integerText at heq
    rw [if_pos ⟨hneg, rfl⟩, if_neg (by omega)] at heq
    rw [← heq]
    exact List.mem_cons_self
  · obtain ⟨n, rfl⟩ := Int.eq_ofNat_of_zero_le (Int.not_lt.mp hneg)
    have hn : n < 2 ^ 64 := by exact_mod_cast h
    rw [integerText_natCast hn, integerText_natCast hn,
      numeral_eq_numeral_iff digitValue (by decide) hb fun d hd =>
        (digitChar_spec (by simp) (by omega)).1]
    omega

end Words

/-! ## The constructors beside the printers -/

namespace Integral

variable {t : Integral} {v : t.Value} {b : Radix}

theorem Value.signed_bounds (v : t.Value) (h : t.signed = true) :
    -2 ^ (t.bits - 1) ≤ v.val ∧ v.val < 2 ^ (t.bits - 1) := by
  have hlow := v.ge
  have hhigh := v.le
  simp only [Integral.min, Integral.max, h, if_true] at hlow hhigh
  exact ⟨hlow, by omega⟩

theorem Value.unsigned_bounds (v : t.Value) (h : t.signed = false) :
    0 ≤ v.val ∧ v.val < 2 ^ t.bits := by
  have hlow := v.ge
  have hhigh := v.le
  simp only [Integral.min, Integral.max, h, Bool.false_eq_true, if_false] at hlow hhigh
  exact ⟨hlow, by omega⟩

theorem Correct.of_print {p : Formatted} (hp : t.print v.val b.val = some p)
    (hs : (t.string v.val (.ofNat b.val)).text = integerText t.promoted v.val b.val ∧
      (t.string v.val (.ofNat b.val)).Fits)
    (he : p.text.map lower = integerText t.promoted v.val b.val ∧ p.Fits) : Correct t v b := by
  refine ⟨hs.1, hs.2, fun q hq => ?_, fun q hq => ?_⟩
  · obtain rfl := Option.some.inj (hp.symm.trans hq)
    exact he
  · obtain rfl := Option.some.inj (hp.symm.trans hq)
    exact he.1.trans hs.1.symm

theorem correct_signed (x : BitVec 32) (ht : t.promoted = 32) (hx : x.toInt = v.val)
    (hs : t.string v.val (.ofNat b.val) = stringInt x (.ofNat b.val))
    (hp : t.print v.val b.val = some (printLong x b.val)) : Correct t v b := by
  refine .of_print hp ?_ ?_
  · rw [hs, ht, ← hx]
    exact stringInt_eq b.ge b.le x
  · rw [ht, ← hx]
    exact printLong_eq b.ge b.le x

theorem correct_unsigned (x : BitVec 32) {w size : Nat} (hw : 0 < w) (hlt : x.toNat < 2 ^ w)
    (hsize : w < size) (ht : t.promoted = 32) (hx : x.toNat = v.val)
    (hs : t.string v.val (.ofNat b.val) = .ofBuffer size (ultoa x b.val))
    (hp : t.print v.val b.val = some (printUnsignedLong x b.val)) : Correct t v b := by
  refine .of_print hp ?_ ?_
  · rw [hs, ht, ← hx]
    exact stringUnsigned_eq b.ge b.le hw x hlt hsize
  · rw [ht, ← hx]
    exact printUnsignedLong_eq b.ge b.le x

theorem correct_wide {size : Nat} (hsize : 65 ≤ size) (ht : t.promoted = 64)
    (hlow : -2 ^ 63 ≤ v.val) (hhigh : v.val < 2 ^ 64)
    (hs : t.string v.val (.ofNat b.val) = .ofBuffer size (snprintf size (decimalText v.val)))
    (hp : t.print v.val b.val = none) :
    Correct t v b ↔ b.val = 10 ∨ (0 ≤ v.val ∧ v.val < b.val ∧ v.val < 10) := by
  obtain ⟨htext, hfits⟩ := snprintf_decimalText hsize hlow hhigh
  rw [← integerText_ten_eq_iff b.ge b.le hhigh]
  constructor
  · intro h
    rw [← htext, ← hs, h.text, ht]
  · intro h
    refine ⟨?_, ?_, fun p hmem => ?_, fun p hmem => ?_⟩
    · rw [hs, ht, htext, h]
    · rw [hs]
      exact hfits
    · rw [hp] at hmem
      cases hmem
    · rw [hp] at hmem
      cases hmem

theorem toNat_ofInt_of_range {w : Nat} {z : Int} (hlow : 0 ≤ z) (hhigh : z < 2 ^ w) :
    ((BitVec.ofInt w z).toNat : Int) = z := by
  rw [BitVec.toNat_ofInt]
  push_cast
  rw [Int.emod_eq_of_lt hlow hhigh]
  exact Int.toNat_of_nonneg hlow

theorem string_unsigned_base (x : BitVec 32) (size : Nat) (b : Radix) :
    Formatted.ofBuffer size (ultoa x (UInt8.ofNat b.val).toNat) =
      .ofBuffer size (ultoa x b.val) := by
  rw [toNat_ofNat_base b.le]

/-- **Integers**: `String(value, base)` and `print(value, base)` give the numeral, and fit their
buffers, if and only if a 64-bit value is asked for in base 10 or has one digit in both bases. -/
theorem correct_iff (t : Integral) (v : t.Value) (b : Radix) : Correct t v b ↔ RightBase t v b := by
  cases t with
  | signedChar | short | int | long =>
    refine iff_of_true ?_ fun h => absurd h (by decide)
    obtain ⟨hlow, hhigh⟩ := v.signed_bounds rfl
    simp only [bits] at hlow hhigh
    exact correct_signed (.ofInt 32 v.val) rfl
      (BitVec.toInt_ofInt_eq_self (by decide) (by omega) (by omega)) rfl rfl
  | bool | char | unsignedShort =>
    refine iff_of_true ?_ fun h => absurd h (by decide)
    obtain ⟨hlow, hhigh⟩ := v.unsigned_bounds rfl
    simp only [bits] at hlow hhigh
    exact correct_signed (.ofInt 32 v.val) rfl
      (BitVec.toInt_ofInt_eq_self (by decide) (by omega) (by omega)) rfl rfl
  | unsignedInt | unsignedLong =>
    refine iff_of_true ?_ fun h => absurd h (by decide)
    obtain ⟨hlow, hhigh⟩ := v.unsigned_bounds rfl
    exact correct_unsigned (.ofInt 32 v.val) (by decide : 0 < 32) (BitVec.isLt _) (by decide) rfl
      (toNat_ofInt_of_range hlow hhigh) (string_unsigned_base _ 33 b) rfl
  | unsignedChar =>
    refine iff_of_true ?_ fun h => absurd h (by decide)
    obtain ⟨hlow, hhigh⟩ := v.unsigned_bounds rfl
    have hwide : ((BitVec.ofInt 8 v.val).setWidth 32).toNat = (BitVec.ofInt 8 v.val).toNat := by
      rw [BitVec.toNat_setWidth]
      exact Nat.mod_eq_of_lt ((BitVec.isLt _).trans (by decide))
    refine correct_unsigned ((BitVec.ofInt 8 v.val).setWidth 32) (by decide : 0 < 8) ?_
      (by decide : 8 < 9) rfl ?_ (string_unsigned_base _ 9 b) rfl
    · rw [hwide]
      exact BitVec.isLt _
    · rw [hwide]
      exact toNat_ofInt_of_range hlow hhigh
  | longLong =>
    obtain ⟨hlow, hhigh⟩ := v.signed_bounds rfl
    simp only [bits] at hlow hhigh
    have hval : (BitVec.ofInt 64 v.val).toInt = v.val :=
      BitVec.toInt_ofInt_eq_self (by decide) (by omega) (by omega)
    have hs : longLong.string v.val (.ofNat b.val) =
        .ofBuffer 66 (snprintf 66 (decimalText v.val)) := by
      unfold string stringLongLong
      rw [hval]
    rw [correct_wide (by decide : 65 ≤ 66) rfl (by omega) (by omega) hs rfl]
    exact ⟨fun h _ => h, fun h => h rfl⟩
  | unsignedLongLong =>
    obtain ⟨hlow, hhigh⟩ := v.unsigned_bounds rfl
    have hval : ((BitVec.ofInt 64 v.val).toNat : Int) = v.val := toNat_ofInt_of_range hlow hhigh
    have hs : unsignedLongLong.string v.val (.ofNat b.val) =
        .ofBuffer 65 (snprintf 65 (decimalText v.val)) := by
      unfold string stringUnsignedLongLong
      rw [hval]
    rw [correct_wide (by decide : 65 ≤ 65) rfl (by omega) hhigh hs rfl]
    exact ⟨fun h _ => h, fun h => h rfl⟩

/-- `String(255LL, 16)` is "255". -/
theorem not_correct_longLong : ¬ ∀ (t : Integral) (v : t.Value) (b : Radix), Correct t v b := by
  intro h
  have htext := (h .longLong ⟨255, by decide, by decide⟩ ⟨16, by decide, by decide⟩).text
  exact absurd htext (by decide +kernel)

end Integral

end Bl616cl.Core
