import Bl616cl.Lib.Ring
import Bl616cl.Hci.Parser

/-!
# The virtual transport's byte queues

The two static rings of `HCIVirtualTransport.cpp`, host to controller (`h2c`) and controller to
host (`c2h`), and the functions on them. Both rings are the same code, so `ByteRing.push` and
`ByteRing.pop` are written once and each source function is their use on its own ring.

`hciParserPump` interleaves taking bytes off the `h2c` ring with feeding the parser; the wake-up
of the RW task after it touches neither, and is left out, as are the armed read of the port
(which nothing here consumes) and the diagnostic counters.
-/

namespace Bl616cl.Hci

open Bl616cl.Lib

/-- `kQueueSize`. -/
def kQueueSize : Nat := 2048

/-- One ring: `head == tail` means empty. -/
structure ByteRing where
  buf : Nat → UInt8
  head : Nat
  tail : Nat
  head_lt : head < kQueueSize
  tail_lt : tail < kQueueSize

/-- A caller's buffer: an object of the 32-bit address space that also holds the two rings. -/
structure Buffer where
  bytes : List UInt8
  fits : bytes.length + 2 * kQueueSize ≤ 2 ^ 32

namespace ByteRing

/-- A zeroed ring. -/
def empty : ByteRing := ⟨fun _ => 0, 0, 0, by decide, by decide⟩

variable (r : ByteRing)

/-- `head = tail = 0`. -/
def reset : ByteRing := { r with head := 0, tail := 0, head_lt := by decide, tail_lt := by decide }

/-- `(tail - head + kQueueSize) % kQueueSize`, in `size_t` arithmetic. -/
def count : Nat := ((2 ^ 32 + r.tail - r.head) % 2 ^ 32 + kQueueSize) % 2 ^ 32 % kQueueSize

/-- Store the bytes at `tail`, one after the other. -/
def store (bytes : List UInt8) : ByteRing where
  buf := (Ring.put kQueueSize r.buf r.tail bytes).1
  head := r.head
  tail := (Ring.put kQueueSize r.buf r.tail bytes).2
  head_lt := r.head_lt
  tail_lt := by rw [Ring.put_index r.tail_lt]; exact Nat.mod_lt _ (by decide)

/-- Store the whole buffer if the check lets it in, else nothing; the number of bytes stored. -/
def push (b : Buffer) : ByteRing × Nat :=
  if (r.count + b.bytes.length) % 2 ^ 32 ≤ kQueueSize then (r.store b.bytes, b.bytes.length)
  else (r, 0)

/-- Take the oldest byte off a non-empty ring. -/
def pop : Option (UInt8 × ByteRing) :=
  if r.head ≠ r.tail then
    some (r.buf r.head,
      { r with head := (r.head + 1) % kQueueSize, head_lt := Nat.mod_lt _ (by decide) })
  else none

/-- The bytes in the ring, oldest first. -/
def toList : List UInt8 := Ring.cells kQueueSize r.buf r.head r.count

theorem count_eq : r.count = Ring.used kQueueSize r.head r.tail := by
  have hh := r.head_lt; have ht := r.tail_lt
  unfold count Ring.used kQueueSize at *
  omega

theorem count_lt : r.count < kQueueSize := by
  rw [count_eq]; exact Ring.used_lt (by decide)

@[simp] theorem length_toList : r.toList.length = r.count := by simp [toList]

@[simp] theorem reset_count : r.reset.count = 0 := by
  rw [count_eq, Ring.used_eq_zero r.reset.head_lt r.reset.tail_lt]
  rfl

@[simp] theorem reset_toList : r.reset.toList = [] := by
  rw [← List.length_eq_zero_iff, length_toList, reset_count]

/-- No real buffer makes the sum in the check wrap. -/
theorem count_add_mod (b : Buffer) :
    (r.count + b.bytes.length) % 2 ^ 32 = r.count + b.bytes.length := by
  have hc := r.count_lt; have hb := b.fits
  unfold kQueueSize at *
  omega

theorem push_fits {b : Buffer} (h : r.count + b.bytes.length ≤ kQueueSize) :
    r.push b = (r.store b.bytes, b.bytes.length) := by
  rw [push, count_add_mod, if_pos h]

theorem push_drops {b : Buffer} (h : ¬ r.count + b.bytes.length ≤ kQueueSize) :
    r.push b = (r, 0) := by
  rw [push, count_add_mod, if_neg h]

theorem store_count (bytes : List UInt8) :
    (r.store bytes).count = (r.count + bytes.length) % kQueueSize := by
  simp only [count_eq, store, Ring.put_index r.tail_lt, Ring.used_advance r.head_lt r.tail_lt]

theorem store_toList (bytes : List UInt8) (h : r.count + bytes.length < kQueueSize) :
    (r.store bytes).toList = r.toList ++ bytes := by
  have htail := Ring.head_add_used r.head_lt r.tail_lt
  have hcells := Ring.cells_put r.buf r.head_lt bytes (Nat.le_of_lt h)
  unfold toList
  rw [store_count, Nat.mod_eq_of_lt h]
  simp only [store]
  rwa [count_eq, htail, ← count_eq] at hcells

/-- A list that fills the ring to the last cell leaves it looking empty. -/
theorem store_full {bytes : List UInt8} (h : r.count + bytes.length = kQueueSize) :
    (r.store bytes).toList = [] := by
  rw [← List.length_eq_zero_iff, length_toList, store_count, h, Nat.mod_self]

theorem toList_eq_nil : r.toList = [] ↔ r.head = r.tail := by
  rw [← List.length_eq_zero_iff, length_toList, count_eq, Ring.used_eq_zero r.head_lt r.tail_lt]

theorem pop_none (h : r.toList = []) : r.pop = none := by
  rw [pop, if_neg (not_not.mpr (r.toList_eq_nil.mp h))]

theorem pop_some {b : UInt8} {bs : List UInt8} (h : r.toList = b :: bs) :
    ∃ r', r.pop = some (b, r') ∧ r'.toList = bs := by
  have hne : r.head ≠ r.tail := fun e => by simp [r.toList_eq_nil.mpr e] at h
  have hcount := Ring.used_pop r.head_lt r.tail_lt hne
  rw [toList, count_eq, ← hcount, Ring.cells_succ] at h
  refine ⟨_, by rw [pop, if_pos hne, (List.cons.inj h).1], ?_⟩
  rw [toList, count_eq]
  exact (List.cons.inj h).2

end ByteRing

/-- The static state of the transport, with the log of the controller calls made. `bleStarted`
is `s_started` of `ble_hci_port.cpp`. -/
structure Transport where
  h2c : ByteRing
  c2h : ByteRing
  parser : Parser
  controllerStarted : Bool
  bleStarted : Bool
  calls : List Call

namespace Transport

/-- The static initialisers. -/
def initial : Transport where
  h2c := ByteRing.empty
  c2h := ByteRing.empty
  parser := Parser.initial
  controllerStarted := false
  bleStarted := false
  calls := []

variable (ctl : Controller) (t : Transport)

def hciTransportReset : Transport := { t with h2c := t.h2c.reset, c2h := t.c2h.reset }

/-- `ble_controller_start` succeeds; its first call resets the transport once more. -/
def bleControllerStart : Transport × Bool :=
  if t.bleStarted then (t, true) else ({ t with bleStarted := true }.hciTransportReset, true)

/-- `HCIVirtualTransportClass::begin`. -/
def begin : Transport × Bool :=
  let (t, ok) := t.hciTransportReset.bleControllerStart
  ({ t with controllerStarted := ok }, ok)

/-- `HCIVirtualTransportClass::end`. -/
def end_ : Transport := t.hciTransportReset

/-- `btble_uart_init`. -/
def btbleUartInit : Transport := t.hciTransportReset

def hciH2cPush (b : Buffer) : Transport × Nat :=
  let r := t.h2c.push b
  ({ t with h2c := r.1 }, r.2)

/-- The return value mirrors the input size, also when the packet is dropped. -/
def hciC2hPush (b : Buffer) : Transport × Nat :=
  ({ t with c2h := (t.c2h.push b).1 }, b.bytes.length)

def hciC2hAvailable : Nat := t.c2h.count

/-- `none` is the return value `-1`. -/
def hciC2hRead : Transport × Option UInt8 :=
  match t.c2h.pop with
  | some (b, r) => ({ t with c2h := r }, some b)
  | none => (t, none)

/-- The loop of `hci_parser_pump`, cut off after the given number of rounds. -/
def pumpLoop : Nat → Transport → Transport
  | 0, t => t
  | n + 1, t =>
    match t.h2c.pop with
    | none => t
    | some (byte, r) =>
      let s := hciParserFeed ctl (t.parser, t.calls) byte
      pumpLoop n { t with h2c := r, parser := s.1, calls := s.2 }

/-- As many rounds as there are bytes empty the ring and end the loop (`pump_drains`). -/
def hciParserPump : Transport := pumpLoop ctl t.h2c.count t

/-- `HCIVirtualTransportClass::write`. -/
def write (b : Buffer) : Transport × Nat :=
  if t.controllerStarted then
    let r := t.hciH2cPush b
    if r.2 > 0 then (r.1.hciParserPump ctl, r.2) else r
  else (t, 0)

theorem write_started (h : t.controllerStarted = true) (b : Buffer) :
    t.write ctl b = if 0 < (t.hciH2cPush b).2 then
      ((t.hciH2cPush b).1.hciParserPump ctl, (t.hciH2cPush b).2) else t.hciH2cPush b := by
  simp only [write, if_pos h, gt_iff_lt]

/-! ## What the pump does -/

theorem pumpLoop_eq {n : Nat} {t : Transport} (h : t.h2c.count ≤ n) :
    ∃ r, r.toList = [] ∧ pumpLoop ctl n t = { t with
      h2c := r
      parser := (feedAll ctl (t.parser, t.calls) t.h2c.toList).1
      calls := (feedAll ctl (t.parser, t.calls) t.h2c.toList).2 } := by
  induction n generalizing t with
  | zero =>
    have hnil : t.h2c.toList = [] := by
      rw [← List.length_eq_zero_iff, ByteRing.length_toList]; omega
    exact ⟨t.h2c, hnil, by simp [pumpLoop, hnil]⟩
  | succ n ih =>
    cases hl : t.h2c.toList with
    | nil => exact ⟨t.h2c, hl, by simp [pumpLoop, t.h2c.pop_none hl]⟩
    | cons b bs =>
      obtain ⟨r, hpop, hr⟩ := t.h2c.pop_some hl
      have hlen : r.count + 1 = t.h2c.count := by
        rw [← ByteRing.length_toList, ← ByteRing.length_toList, hl, hr]; rfl
      obtain ⟨r', hr', heq⟩ := ih (t := { t with
        h2c := r
        parser := (hciParserFeed ctl (t.parser, t.calls) b).1
        calls := (hciParserFeed ctl (t.parser, t.calls) b).2 }) (by simp only; omega)
      refine ⟨r', hr', ?_⟩
      simp only [pumpLoop, hpop, heq, hr, feedAll_cons]

/-- **The pump** feeds the parser exactly the bytes of the ring and leaves the ring empty. -/
theorem pump_drains : ∃ r, r.toList = [] ∧ t.hciParserPump ctl = { t with
    h2c := r
    parser := (feedAll ctl (t.parser, t.calls) t.h2c.toList).1
    calls := (feedAll ctl (t.parser, t.calls) t.h2c.toList).2 } :=
  pumpLoop_eq ctl (Nat.le_refl _)

/-- A running transport reports what the ring accepted. -/
theorem write_snd (h : t.controllerStarted = true) (b : Buffer) :
    (t.write ctl b).2 = (t.hciH2cPush b).2 := by
  rw [write_started ctl t h]
  split <;> rfl

end Transport

end Bl616cl.Hci
