import Mathlib.Data.Nat.Bitwise
import Bl616cl.Lib.Ring

/-!
# The serial port's receive ring

`HardwareSerial.cpp`: the interrupt handler puts bytes at `rx_head_`, the sketch takes them at
`rx_tail_`, and equal indices mean that the ring is empty, so it holds one byte less than its size.
-/

namespace Bl616cl.Serial

open Bl616cl.Lib

/-- `kRxBufferSize`. -/
def rxBufferSize : Nat := 4096

/-- `kRxBufferMask`. -/
def rxBufferMask : UInt32 := 4095

structure HardwareSerial where
  /-- `device_` is not null. -/
  device : Bool
  rxBuffer : Nat → UInt8
  rxHead : UInt16
  rxTail : UInt16
  rxReceivedCount : UInt32
  rxOverflowCount : UInt32

/-- `static_cast<uint16_t>((i + 1U) & kRxBufferMask)`. -/
def advance (i : UInt16) : UInt16 := ((i.toUInt32 + 1) &&& rxBufferMask).toUInt16

namespace HardwareSerial

variable (s : HardwareSerial)

/-- What `drainHardwareRx` does with one byte of the FIFO. -/
def receive (value : UInt8) : HardwareSerial :=
  let s := { s with rxReceivedCount := s.rxReceivedCount + 1 }
  if advance s.rxHead = s.rxTail then { s with rxOverflowCount := s.rxOverflowCount + 1 }
  else { s with
    rxBuffer := Function.update s.rxBuffer s.rxHead.toNat value
    rxHead := advance s.rxHead }

/-- The handler finds these bytes in the FIFO. -/
def drainHardwareRx (values : List UInt8) : HardwareSerial :=
  if !s.device then s else values.foldl receive s

def resetRxBuffer : HardwareSerial :=
  { s with rxHead := 0, rxTail := 0, rxReceivedCount := 0, rxOverflowCount := 0 }

def bufferedRxCount : UInt16 := ((s.rxHead.toUInt32 - s.rxTail.toUInt32) &&& rxBufferMask).toUInt16

/-- `device_ == nullptr || rx_head_ == rx_tail_`. -/
def nothingToRead : Bool := !s.device || s.rxHead == s.rxTail

end HardwareSerial

/-! ## Indices as natural numbers -/

theorem toNat_mask (x : UInt32) : (x &&& rxBufferMask).toUInt16.toNat = x.toNat % rxBufferSize := by
  have hmod := Nat.and_two_pow_sub_one_eq_mod x.toNat 12
  rw [UInt32.toNat_toUInt16, UInt32.toNat_and]
  show (x.toNat &&& (2 ^ 12 - 1)) % 2 ^ 16 = x.toNat % 4096
  omega

theorem toNat_advance (i : UInt16) : (advance i).toNat = (i.toNat + 1) % rxBufferSize := by
  rw [advance, toNat_mask, UInt32.toNat_add, UInt16.toNat_toUInt32]
  show (i.toNat + 1) % 2 ^ 32 % 4096 = (i.toNat + 1) % 4096
  omega

theorem toNat_advance_lt (i : UInt16) : (advance i).toNat < rxBufferSize := by
  rw [toNat_advance]
  exact Nat.mod_lt _ (by decide)

namespace HardwareSerial

variable {s : HardwareSerial}

/-- The indices are inside the buffer. -/
structure InRange (s : HardwareSerial) : Prop where
  head_lt : s.rxHead.toNat < rxBufferSize
  tail_lt : s.rxTail.toNat < rxBufferSize

/-- The number of bytes in the ring. -/
def used (s : HardwareSerial) : Nat := Ring.used rxBufferSize s.rxTail.toNat s.rxHead.toNat

/-- The bytes in the ring, oldest first. -/
def rxBytes (s : HardwareSerial) : List UInt8 :=
  Ring.cells rxBufferSize s.rxBuffer s.rxTail.toNat s.used

@[simp] theorem length_rxBytes : s.rxBytes.length = s.used := Ring.length_cells

theorem used_lt : s.used < rxBufferSize := Ring.used_lt (by decide)

theorem InRange.count_eq (h : s.InRange) : s.bufferedRxCount.toNat = s.used := by
  have hh := h.head_lt
  have ht := h.tail_lt
  unfold rxBufferSize at hh ht
  rw [bufferedRxCount, toNat_mask, UInt32.toNat_sub, UInt16.toNat_toUInt32, UInt16.toNat_toUInt32]
  show (2 ^ 32 - s.rxTail.toNat + s.rxHead.toNat) % 2 ^ 32 % 4096 =
    (s.rxHead.toNat + 4096 - s.rxTail.toNat) % 4096
  omega

theorem InRange.used_eq_zero (h : s.InRange) : s.used = 0 ↔ s.rxHead = s.rxTail := by
  rw [used, Ring.used_eq_zero h.tail_lt h.head_lt, UInt16.toNat_inj]
  exact eq_comm

/-- The handler finds the ring full exactly if one cell is left. -/
theorem InRange.full_iff (h : s.InRange) :
    advance s.rxHead = s.rxTail ↔ s.used = rxBufferSize - 1 := by
  have hnext : Ring.used rxBufferSize s.rxTail.toNat (advance s.rxHead).toNat =
      (s.used + 1) % rxBufferSize := by
    rw [toNat_advance, Ring.used_advance h.tail_lt h.head_lt, used]
  have hlt : s.used < rxBufferSize := used_lt
  have hzero := Ring.used_eq_zero h.tail_lt (toNat_advance_lt s.rxHead)
  rw [hnext] at hzero
  rw [← UInt16.toNat_inj, eq_comm, ← hzero]
  unfold rxBufferSize at *
  omega

theorem inRange_reset : s.resetRxBuffer.InRange :=
  ⟨Nat.lt_of_le_of_lt (Nat.le_refl 0) (by decide), Nat.lt_of_le_of_lt (Nat.le_refl 0) (by decide)⟩

theorem rxBytes_reset : s.resetRxBuffer.rxBytes = [] := by
  have hnone : s.resetRxBuffer.used = 0 := inRange_reset.used_eq_zero.mpr rfl
  rw [rxBytes, hnone]
  rfl

/-! ## Putting and taking -/

theorem receive_full (hfull : advance s.rxHead = s.rxTail) (value : UInt8) : s.receive value =
    { s with
      rxReceivedCount := s.rxReceivedCount + 1
      rxOverflowCount := s.rxOverflowCount + 1 } := if_pos hfull

theorem receive_free (hfree : advance s.rxHead ≠ s.rxTail) (value : UInt8) : s.receive value =
    { s with
      rxReceivedCount := s.rxReceivedCount + 1
      rxBuffer := Function.update s.rxBuffer s.rxHead.toNat value
      rxHead := advance s.rxHead } := if_neg hfree

theorem InRange.receive (h : s.InRange) (value : UInt8) : (s.receive value).InRange := by
  by_cases hfull : advance s.rxHead = s.rxTail
  · rw [receive_full hfull]
    exact ⟨h.head_lt, h.tail_lt⟩
  · rw [receive_free hfull]
    exact ⟨toNat_advance_lt s.rxHead, h.tail_lt⟩

theorem InRange.rxBytes_receive (h : s.InRange) (hfree : advance s.rxHead ≠ s.rxTail)
    (value : UInt8) : (s.receive value).rxBytes = s.rxBytes ++ [value] := by
  have hroom : s.used + 1 < rxBufferSize := by
    have hlt : s.used < rxBufferSize := used_lt
    have hnot := mt h.full_iff.mpr hfree
    unfold rxBufferSize at *
    omega
  have hused : (s.receive value).used = s.used + 1 := by
    rw [receive_free hfree, used]
    simp only
    rw [toNat_advance, Ring.used_advance h.tail_lt h.head_lt]
    exact Nat.mod_eq_of_lt hroom
  have hnext : (s.rxTail.toNat + s.used) % rxBufferSize = s.rxHead.toNat :=
    Ring.head_add_used h.tail_lt h.head_lt
  rw [rxBytes, hused, receive_free hfree]
  simp only
  rw [← hnext]
  exact Ring.cells_push h.tail_lt (Nat.lt_of_succ_lt hroom) value

/-- `rx_tail_` moves on by one. -/
def pop (s : HardwareSerial) : HardwareSerial := { s with rxTail := advance s.rxTail }

theorem InRange.pop (h : s.InRange) : s.pop.InRange := ⟨h.head_lt, toNat_advance_lt s.rxTail⟩

theorem InRange.rxBytes_pop (h : s.InRange) (hne : s.rxHead ≠ s.rxTail) :
    s.rxBytes = s.rxBuffer s.rxTail.toNat :: s.pop.rxBytes := by
  have hnat : s.rxTail.toNat ≠ s.rxHead.toNat := fun he => hne (UInt16.toNat_inj.mp he).symm
  have hused : s.used = s.pop.used + 1 := by
    rw [used, used, HardwareSerial.pop]
    simp only
    rw [toNat_advance, Ring.used_pop h.tail_lt h.head_lt hnat]
  rw [rxBytes, hused, Ring.cells_succ, rxBytes, HardwareSerial.pop]
  simp only
  rw [toNat_advance]

end HardwareSerial

end Bl616cl.Serial
