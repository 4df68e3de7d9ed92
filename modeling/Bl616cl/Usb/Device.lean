import Bl616cl.Lib.Ring
import Bl616cl.Lib.Word

/-!
# The USB device

The CDC and HID classes of `esp32_usb.cpp`, the endpoint callbacks and the bus event handler,
with the part of the USB controller they talk to: which OUT endpoints have a read started, and
which IN transfers are in flight. The sketch's `USBCDC` object is constructed, so
`USBCDC::instance()` is not null.

The controller keeps its side of the interface: an OUT transfer of at most the bytes asked for
completes only on an armed endpoint, IN transfers of an endpoint complete in the order they were
started, and a bus reset or disconnect cancels all of them.
-/

namespace Bl616cl.Usb

open Bl616cl.Lib

/-- `sizeof(rx_buffer_)`. -/
def rxSize : Nat := 4096

/-- `sizeof(cdc_rx_buffer)`: the bytes a CDC OUT read asks for. -/
def cdcRxSize : Nat := 4096

/-- `sizeof(USBCDC::tx_buffer_)`. -/
def cdcTxSize : Nat := 4096

/-- `CFG_TUD_HID_EP_BUFSIZE`: `sizeof(USBHID::tx_buffer_)`. -/
def hidTxSize : Nat := 64

/-! ## IN paths -/

/-- A started IN transfer: its number and the bytes it was started with. -/
structure InTransfer where
  id : Nat
  bytes : List UInt8
  deriving DecidableEq, Repr

/-- The IN path of a class: its busy flag and staging buffer, and the controller's transfers. -/
structure TxPath where
  txBusy : Bool
  txBuffer : List UInt8
  /-- The transfers in flight, oldest first. -/
  inFlight : List InTransfer
  started : Nat
  /-- The transfer whose start last set the busy flag. -/
  busyFor : Option Nat
  /-- A write was started while a transfer was in flight. -/
  rewritten : Bool
  /-- A completion cleared the busy flag of another transfer. -/
  misCleared : Bool
  deriving DecidableEq, Repr

namespace TxPath

def initial : TxPath := ⟨false, [], [], 0, none, false, false⟩

variable (p : TxPath)

/-- Stage the bytes, set the busy flag and call `usbd_ep_start_write`; where that fails (`ok` is
false) the flag is cleared again. -/
def startWrite (bytes : List UInt8) (ok : Bool) : TxPath × Bool :=
  let staged := { p with
    txBuffer := bytes ++ p.txBuffer.drop bytes.length
    txBusy := true
    started := p.started + 1
    busyFor := some p.started
    rewritten := p.rewritten || !p.inFlight.isEmpty }
  if ok then ({ staged with inFlight := p.inFlight ++ [⟨p.started, bytes⟩] }, true)
  else ({ staged with txBusy := false }, false)

def onTxComplete : TxPath := { p with txBusy := false }

/-- The oldest transfer in flight completes, and its callback runs. -/
def complete : TxPath :=
  match p.inFlight with
  | [] => p
  | x :: rest => { p with
      inFlight := rest
      misCleared := p.misCleared || (p.txBusy && p.busyFor != some x.id) }.onTxComplete

def cancel : TxPath := { p with inFlight := [] }

end TxPath

/-! ## OUT endpoints -/

/-- An OUT endpoint of the controller. -/
structure OutEndpoint where
  armed : Bool
  /-- A read was started while one was. -/
  rearmed : Bool
  deriving DecidableEq, Repr

namespace OutEndpoint

def closed : OutEndpoint := ⟨false, false⟩

/-- `usbd_ep_start_read`. -/
def startRead (e : OutEndpoint) : OutEndpoint := ⟨true, e.rearmed || e.armed⟩

end OutEndpoint

/-- The bytes of one completed CDC OUT read. -/
structure OutTransfer where
  bytes : List UInt8
  fits : bytes.length ≤ cdcRxSize

/-! ## The CDC class -/

structure USBCDC where
  baud : Nat
  active : Bool
  tx : TxPath
  rxBuffer : Nat → UInt8
  rxHead : Nat
  rxTail : Nat
  rxCount : Nat

namespace USBCDC

/-- The constructor. -/
def initial : USBCDC := ⟨0, false, TxPath.initial, fun _ => 0, 0, 0, 0⟩

variable (c : USBCDC)

def begin (baud : Nat) : USBCDC := { c with baud := baud, active := true }

def end_ : USBCDC :=
  { c with
    active := false
    tx := { c.tx with txBusy := false }
    rxHead := 0
    rxTail := 0
    rxCount := 0 }

def available : Int := toInt32 c.rxCount

/-- `none` is the return value `-1`. -/
def peek : Option UInt8 := if c.rxCount = 0 then none else some (c.rxBuffer c.rxTail)

def rxRoom : Nat := sub32 rxSize c.rxCount

/-- What `onOutData` cuts a transfer down to. -/
def cut (data : List UInt8) : List UInt8 :=
  if data.length > c.rxRoom then data.take c.rxRoom else data

/-- The part of a transfer that `onOutData` stores. -/
def stored (data : List UInt8) : List UInt8 :=
  if data.length = 0 ∨ ¬ c.active then [] else c.cut data

def onOutData (data : List UInt8) : USBCDC :=
  if data.length = 0 ∨ ¬ c.active then c
  else { c with
    rxBuffer := (Ring.put rxSize c.rxBuffer c.rxHead (c.cut data)).1
    rxHead := (Ring.put rxSize c.rxBuffer c.rxHead (c.cut data)).2
    rxCount := add32 c.rxCount (c.cut data).length }

/-- The statements of `read` that take a byte off the ring. -/
def pop : USBCDC :=
  { c with rxTail := (c.rxTail + 1) % rxSize, rxCount := sub32 c.rxCount 1 }

/-- `write(buffer, size)`; `none` is the null pointer. -/
def write (buffer : Option (List UInt8)) (ok : Bool) : USBCDC × Nat :=
  match buffer with
  | none => (c, 0)
  | some bytes =>
    if !c.active || c.tx.txBusy || bytes.length == 0 || bytes.length > cdcTxSize then (c, 0)
    else
      ({ c with tx := (c.tx.startWrite bytes ok).1 },
        if (c.tx.startWrite bytes ok).2 then bytes.length else 0)

def availableForWrite : Int := if !c.active || c.tx.txBusy then 0 else cdcTxSize

end USBCDC

/-! ## The HID class -/

structure USBHID where
  /-- Whether a device is registered. -/
  device : Bool
  tx : TxPath

namespace USBHID

def sendReport (h : USBHID) (buffer : Option (List UInt8)) (ok : Bool) : USBHID :=
  match buffer with
  | none => h
  | some bytes =>
    if h.tx.txBusy || bytes.length == 0 || bytes.length > hidTxSize then h
    else { h with tx := (h.tx.startWrite bytes ok).1 }

end USBHID

/-! ## Callbacks and events -/

/-- `USBD_EVENT_*`; `other` stands for the events the handler ignores by default. -/
inductive UsbdEvent where
  | reset | suspend | disconnected | configured | connected | resume | other
  deriving DecidableEq, Repr

/-- The handler calls `USBCDC::end` on this event. -/
def UsbdEvent.ends : UsbdEvent → Bool
  | .reset | .suspend | .disconnected => true
  | _ => false

/-- The whole device. -/
structure Device where
  cdc : USBCDC
  hid : USBHID
  cdcOutRearmPending : Bool
  cdcOut : OutEndpoint
  hidOut : OutEndpoint

namespace Device

/-- At power-up. -/
def initial (device : Bool) : Device :=
  ⟨USBCDC.initial, ⟨device, TxPath.initial⟩, false, OutEndpoint.closed, OutEndpoint.closed⟩

variable (s : Device)

/-- `usbd_ep_start_read` on the CDC OUT endpoint. -/
def armCdcOut : Device := { s with cdcOut := s.cdcOut.startRead }

/-- `USBCDC::read`; `none` is the return value `-1`. -/
def read : Device × Option UInt8 :=
  if s.cdc.rxCount = 0 then (s, none)
  else
    let value := s.cdc.rxBuffer s.cdc.rxTail
    let s := { s with cdc := s.cdc.pop }
    if s.cdcOutRearmPending ∧ s.cdc.rxRoom ≥ cdcRxSize then
      ({ s with cdcOutRearmPending := false }.armCdcOut, some value)
    else (s, some value)

def cdcOutCallback (data : List UInt8) : Device :=
  let s := { s with cdcOutRearmPending := false }
  let s := { s with cdc := s.cdc.onOutData data }
  if s.cdc.rxRoom ≥ cdcRxSize then s.armCdcOut
  else { s with cdcOutRearmPending := true }

def cdcInCallback : Device := { s with cdc := { s.cdc with tx := s.cdc.tx.complete } }

/-- The device's own `onOutput` sees the data and nothing of the state here. -/
def hidOutCallback : Device := { s with hidOut := s.hidOut.startRead }

def hidInCallback : Device := { s with hid := { s.hid with tx := s.hid.tx.complete } }

def usbEventHandler : UsbdEvent → Device
  | .reset | .suspend | .disconnected => { s with cdc := s.cdc.end_ }
  | .configured =>
    let s := { s with cdc := s.cdc.begin s.cdc.baud }
    let s := { s with cdcOutRearmPending := false }.armCdcOut
    if s.hid.device then { s with hidOut := s.hidOut.startRead } else s
  | .connected | .resume | .other => s

/-- The controller drops every transfer. -/
def closeEndpoints : Device :=
  { s with
    cdc := { s.cdc with tx := s.cdc.tx.cancel }
    hid := { s.hid with tx := s.hid.tx.cancel }
    cdcOut := OutEndpoint.closed
    hidOut := OutEndpoint.closed }

/-- A bus event: what the controller does, then the handler. -/
def busEvent (e : UsbdEvent) : Device :=
  match e with
  | .reset | .disconnected => s.closeEndpoints.usbEventHandler e
  | _ => s.usbEventHandler e

/-- A CDC OUT read completes, which takes an armed endpoint. -/
def cdcOutDone (d : OutTransfer) : Device :=
  if s.cdcOut.armed then
    { s with cdcOut := { s.cdcOut with armed := false } }.cdcOutCallback d.bytes
  else s

/-- A HID OUT read completes, which takes an armed endpoint. -/
def hidOutDone : Device :=
  if s.hidOut.armed then { s with hidOut := { s.hidOut with armed := false } }.hidOutCallback
  else s

end Device

/-! ## Operations -/

/-- Everything that may happen to the device: bus events, completions, and calls of the sketch.
Null and over-long buffers included; `ok` is the result of `usbd_ep_start_write`. -/
inductive DeviceOp where
  | event (e : UsbdEvent)
  | cdcOutDone (d : OutTransfer)
  | cdcInDone
  | hidOutDone
  | hidInDone
  | begin (baud : Nat)
  | end_
  | available
  | read
  | peek
  | write (buffer : Option (List UInt8)) (ok : Bool)
  | availableForWrite
  | sendReport (buffer : Option (List UInt8)) (ok : Bool)

def Device.step (s : Device) : DeviceOp → Device
  | .event e => s.busEvent e
  | .cdcOutDone d => s.cdcOutDone d
  | .cdcInDone => s.cdcInCallback
  | .hidOutDone => s.hidOutDone
  | .hidInDone => s.hidInCallback
  | .begin baud => { s with cdc := s.cdc.begin baud }
  | .end_ => { s with cdc := s.cdc.end_ }
  | .read => s.read.1
  | .write buffer ok => { s with cdc := (s.cdc.write buffer ok).1 }
  | .sendReport buffer ok => { s with hid := s.hid.sendReport buffer ok }
  | .available | .peek | .availableForWrite => s

/-! ## The receive ring -/

namespace USBCDC

variable {c : USBCDC}

/-- The ring's indices and its count are in range. -/
structure RxBounds (c : USBCDC) : Prop where
  head_lt : c.rxHead < rxSize
  tail_lt : c.rxTail < rxSize
  count_le : c.rxCount ≤ rxSize

/-- And the indices are one count apart. -/
structure RxOk (c : USBCDC) : Prop extends RxBounds c where
  head_eq : c.rxHead = (c.rxTail + c.rxCount) % rxSize

/-- The bytes in the ring, oldest first. -/
def rxBytes (c : USBCDC) : List UInt8 := Ring.cells rxSize c.rxBuffer c.rxTail c.rxCount

@[simp] theorem length_rxBytes : c.rxBytes.length = c.rxCount := Ring.length_cells

theorem rxOk_initial : initial.RxOk := ⟨⟨by decide, by decide, by decide⟩, by decide⟩

theorem rxOk_end : c.end_.RxOk :=
  ⟨⟨by simp [end_, rxSize], by simp [end_, rxSize], by simp [end_]⟩, by simp [end_]⟩

theorem RxOk.begin (h : c.RxOk) (baud : Nat) : (c.begin baud).RxOk :=
  ⟨⟨h.head_lt, h.tail_lt, h.count_le⟩, h.head_eq⟩

theorem RxBounds.count_lt (h : c.RxBounds) : c.rxCount < 2 ^ 31 := by
  have := h.count_le
  unfold rxSize at this
  omega

theorem RxBounds.available_eq (h : c.RxBounds) : c.available = c.rxCount :=
  toInt32_of_lt h.count_lt

theorem RxBounds.rxRoom_eq (h : c.RxBounds) : c.rxRoom = rxSize - c.rxCount :=
  sub32_of_le h.count_le (by decide)

/-- There is room for a full transfer only in an empty ring. -/
theorem RxBounds.room_iff (h : c.RxBounds) : c.rxRoom ≥ cdcRxSize ↔ c.rxCount = 0 := by
  have := h.count_le
  rw [h.rxRoom_eq]
  unfold rxSize cdcRxSize at *
  omega

theorem cut_eq {data : List UInt8} (h : data.length ≤ c.rxRoom) : c.cut data = data :=
  if_neg (Nat.not_lt.mpr h)

theorem RxBounds.length_stored (h : c.RxBounds) (data : List UInt8) :
    c.rxCount + (c.stored data).length ≤ rxSize := by
  have hc := h.count_le
  unfold stored cut
  rw [h.rxRoom_eq]
  split
  · exact hc
  · split
    · rw [List.length_take]; omega
    · omega

theorem RxBounds.onOutData_eq (h : c.RxBounds) (data : List UInt8) :
    c.onOutData data = { c with
      rxBuffer := (Ring.put rxSize c.rxBuffer c.rxHead (c.stored data)).1
      rxHead := (c.rxHead + (c.stored data).length) % rxSize
      rxCount := c.rxCount + (c.stored data).length } := by
  have hlen := h.length_stored data
  unfold stored at hlen ⊢
  unfold onOutData
  by_cases hno : data.length = 0 ∨ ¬ c.active
  · simp only [if_pos hno, Ring.put, List.length_nil, Nat.add_zero, Nat.mod_eq_of_lt h.head_lt]
  · rw [if_neg hno] at hlen
    have hsum : add32 c.rxCount (c.cut data).length = c.rxCount + (c.cut data).length :=
      add32_of_lt (by unfold rxSize at hlen; omega)
    simp only [if_neg hno, Ring.put_index h.head_lt, hsum]

theorem RxBounds.onOutData (h : c.RxBounds) (data : List UInt8) :
    (c.onOutData data).RxBounds := by
  rw [h.onOutData_eq]
  exact ⟨Nat.mod_lt _ (by decide), h.tail_lt, h.length_stored data⟩

theorem RxOk.onOutData (h : c.RxOk) (data : List UInt8) : (c.onOutData data).RxOk := by
  refine ⟨h.toRxBounds.onOutData data, ?_⟩
  rw [h.onOutData_eq]
  simp only
  rw [h.head_eq, Nat.mod_add_mod, Nat.add_assoc]

theorem RxOk.rxBytes_onOutData (h : c.RxOk) (data : List UInt8) :
    (c.onOutData data).rxBytes = c.rxBytes ++ c.stored data := by
  have hcells := Ring.cells_put c.rxBuffer h.tail_lt (c.stored data)
    (h.length_stored data)
  rw [← h.head_eq] at hcells
  rw [h.onOutData_eq]
  exact hcells

theorem stored_eq (ha : c.active = true) {data : List UInt8} (h : data.length ≤ c.rxRoom) :
    c.stored data = data := by
  unfold stored
  split
  · next hno => simpa [ha, eq_comm] using hno
  · exact cut_eq h

@[simp] theorem tx_onOutData (data : List UInt8) : (c.onOutData data).tx = c.tx := by
  unfold onOutData
  split <;> rfl

@[simp] theorem active_onOutData (data : List UInt8) : (c.onOutData data).active = c.active := by
  unfold onOutData
  split <;> rfl

theorem RxBounds.rxCount_pop (h : c.RxBounds) (hpos : c.rxCount ≠ 0) :
    c.pop.rxCount = c.rxCount - 1 :=
  sub32_of_le (by omega) (by have := h.count_lt; omega)

theorem RxOk.pop (h : c.RxOk) (hpos : c.rxCount ≠ 0) : c.pop.RxOk := by
  have hcount := h.rxCount_pop hpos
  refine ⟨⟨h.head_lt, Nat.mod_lt _ (by decide), ?_⟩, ?_⟩
  · rw [hcount]; have := h.count_le; omega
  · rw [hcount]
    simp only [USBCDC.pop]
    rw [h.head_eq, Nat.mod_add_mod]
    congr 1
    omega

theorem RxOk.rxBytes_pop (h : c.RxOk) (hpos : c.rxCount ≠ 0) :
    c.rxBytes = c.rxBuffer c.rxTail :: c.pop.rxBytes := by
  have hcount := h.rxCount_pop hpos
  have hsucc : c.rxCount = c.pop.rxCount + 1 := by omega
  rw [rxBytes, hsucc, Ring.cells_succ]
  rfl

theorem rxOk_write (h : c.RxOk) (buffer : Option (List UInt8)) (ok : Bool) :
    (c.write buffer ok).1.RxOk := by
  unfold write
  split
  · exact h
  · split
    · exact h
    · exact ⟨⟨h.head_lt, h.tail_lt, h.count_le⟩, h.head_eq⟩

end USBCDC

namespace Device

variable {s : Device}

/-- `read` takes the oldest byte off, and arms the endpoint when it was the last one and the
callback had left that to it. -/
theorem read_eq (h : s.cdc.RxOk) (hpos : s.cdc.rxCount ≠ 0) : s.read =
    (if s.cdcOutRearmPending ∧ s.cdc.rxCount = 1 then
      { s with cdc := s.cdc.pop, cdcOutRearmPending := false }.armCdcOut
    else { s with cdc := s.cdc.pop }, some (s.cdc.rxBuffer s.cdc.rxTail)) := by
  have hroom : s.cdc.pop.rxRoom ≥ cdcRxSize ↔ s.cdc.rxCount = 1 := by
    rw [(h.pop hpos).room_iff, h.rxCount_pop hpos]
    omega
  simp only [read, if_neg hpos, hroom]
  split <;> rfl

theorem read_empty (h : s.cdc.rxCount = 0) : s.read = (s, none) := if_pos h

/-- A completed transfer leaves the endpoint armed if and only if it left the ring empty, and
otherwise leaves the arming to `read`. -/
theorem cdcOutDone_eq (h : s.cdc.RxBounds) (ha : s.cdcOut.armed = true) (d : OutTransfer) :
    s.cdcOutDone d = if (s.cdc.onOutData d.bytes).rxCount = 0 then
      { s with
        cdc := s.cdc.onOutData d.bytes
        cdcOutRearmPending := false
        cdcOut := ⟨true, s.cdcOut.rearmed⟩ }
    else { s with
      cdc := s.cdc.onOutData d.bytes
      cdcOutRearmPending := true
      cdcOut := ⟨false, s.cdcOut.rearmed⟩ } := by
  simp only [cdcOutDone, if_pos ha, cdcOutCallback, (h.onOutData d.bytes).room_iff, armCdcOut,
    OutEndpoint.startRead, Bool.or_false]

theorem cdcOutDone_disarmed (ha : s.cdcOut.armed = false) (d : OutTransfer) :
    s.cdcOutDone d = s := if_neg (by simp [ha])

@[simp] theorem configured_cdc :
    (s.busEvent .configured).cdc = s.cdc.begin s.cdc.baud := by
  cases hd : s.hid.device <;> simp [busEvent, usbEventHandler, armCdcOut, hd]

@[simp] theorem configured_cdcOut :
    (s.busEvent .configured).cdcOut = s.cdcOut.startRead := by
  cases hd : s.hid.device <;> simp [busEvent, usbEventHandler, armCdcOut, hd]

theorem rxOk_busEvent (h : s.cdc.RxOk) (e : UsbdEvent) : (s.busEvent e).cdc.RxOk := by
  cases e with
  | configured =>
    rw [configured_cdc]
    exact h.begin _
  | reset => exact USBCDC.rxOk_end
  | suspend => exact USBCDC.rxOk_end
  | disconnected => exact USBCDC.rxOk_end
  | connected => exact h
  | resume => exact h
  | other => exact h

theorem rxOk_read (h : s.cdc.RxOk) : s.read.1.cdc.RxOk := by
  by_cases hpos : s.cdc.rxCount = 0
  · rwa [read_empty hpos]
  · rw [read_eq h hpos]
    split <;> exact h.pop hpos

theorem rxOk_cdcOutDone (h : s.cdc.RxOk) (d : OutTransfer) : (s.cdcOutDone d).cdc.RxOk := by
  cases ha : s.cdcOut.armed with
  | false => rwa [cdcOutDone_disarmed ha]
  | true =>
    rw [cdcOutDone_eq h.toRxBounds ha]
    split <;> exact h.onOutData _

/-- **Receive ring**: every operation keeps its indices in step. -/
theorem rxOk_step (h : s.cdc.RxOk) (op : DeviceOp) : (s.step op).cdc.RxOk := by
  cases op with
  | event e => exact rxOk_busEvent h e
  | cdcOutDone d => exact rxOk_cdcOutDone h d
  | begin baud => exact h.begin baud
  | end_ => exact USBCDC.rxOk_end
  | read => exact rxOk_read h
  | write buffer ok => exact USBCDC.rxOk_write h buffer ok
  | hidOutDone =>
    simp only [step, hidOutDone]
    split <;> exact h
  | cdcInDone => exact ⟨⟨h.head_lt, h.tail_lt, h.count_le⟩, h.head_eq⟩
  | hidInDone | available | peek | availableForWrite | sendReport _ _ => exact h

end Device

end Bl616cl.Usb
