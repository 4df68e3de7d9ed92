import Bl616cl.Lib.Run
import Bl616cl.Usb.Device

/-!
# IN staging buffers

Who owns the staging buffer of an IN path. The busy flag is meant to be set exactly while a
transfer is in flight. `USBHID` keeps to that in one direction: no transfer is in flight on an
idle path. `USBCDC::end` clears the flag of a running transfer; that does no harm as long as the
interface stays closed until the transfer is over.
-/

namespace Bl616cl.Usb

open Bl616cl.Lib

namespace TxPath

variable {p : TxPath}

/-- What should hold of an IN path: no write was started over a running transfer, every completion
cleared its own flag, and the buffer still holds what each running transfer was started with. -/
structure Safe (p : TxPath) : Prop where
  kept : p.rewritten = false
  own : p.misCleared = false
  intact : ∀ x ∈ p.inFlight, x.bytes <+: p.txBuffer

/-- At most one transfer is in flight, and if the path is busy it is the one it is busy for. -/
structure Owned (p : TxPath) : Prop extends Safe p where
  single : p.inFlight.length ≤ 1
  owner : p.txBusy = true → ∀ x ∈ p.inFlight, p.busyFor = some x.id

theorem owned_initial : initial.Owned :=
  ⟨⟨rfl, rfl, by simp [initial]⟩, by decide, by simp [initial]⟩

theorem Owned.release (h : p.Owned) : { p with txBusy := false }.Owned :=
  ⟨⟨h.kept, h.own, h.intact⟩, h.single, by simp⟩

theorem Owned.cancel (h : p.Owned) : p.cancel.Owned :=
  ⟨⟨h.kept, h.own, by simp [TxPath.cancel]⟩, by simp [TxPath.cancel], by simp [TxPath.cancel]⟩

theorem Owned.startWrite (h : p.Owned) (hfree : p.inFlight = []) (bytes : List UInt8) (ok : Bool) :
    (p.startWrite bytes ok).1.Owned := by
  cases ok <;>
    exact ⟨⟨by simp [TxPath.startWrite, h.kept, hfree], h.own,
      by simp [TxPath.startWrite, hfree]⟩, by simp [TxPath.startWrite, hfree],
      by simp [TxPath.startWrite, hfree]⟩

theorem Owned.complete (h : p.Owned) : p.complete.Owned := by
  unfold TxPath.complete
  cases hf : p.inFlight with
  | nil => exact h
  | cons x rest =>
    have hrest : rest = [] := by
      have := h.single
      rw [hf, List.length_cons] at this
      exact List.length_eq_zero_iff.mp (by omega)
    have hown : (p.txBusy && p.busyFor != some x.id) = false := by
      cases hb : p.txBusy with
      | false => rfl
      | true => simp [h.owner hb x (by rw [hf]; exact List.mem_cons_self ..)]
    exact ⟨⟨h.kept, by simp [onTxComplete, h.own, hown], by simp [onTxComplete, hrest]⟩,
      by simp [onTxComplete, hrest], by simp [onTxComplete]⟩

/-- No transfer is in flight on a path that takes a write. -/
def Free (p : TxPath) : Prop := p.txBusy = false → p.inFlight = []

theorem Free.complete (h : p.Free) (ho : p.Owned) : p.complete.Free := by
  unfold TxPath.complete
  cases hf : p.inFlight with
  | nil => exact h
  | cons x rest =>
    intro _
    have := ho.single
    rw [hf, List.length_cons] at this
    show rest = []
    exact List.length_eq_zero_iff.mp (by omega)

theorem Free.startWrite (h : p.Free) (hb : p.txBusy = false) (bytes : List UInt8) (ok : Bool) :
    (p.startWrite bytes ok).1.Free := by
  cases ok with
  | true => intro hbusy; simp [TxPath.startWrite] at hbusy
  | false => intro _; simpa [TxPath.startWrite] using h hb

end TxPath

namespace Device

variable {s : Device}

/-- What should hold in every state. -/
def TxSafe (s : Device) : Prop := s.cdc.tx.Safe ∧ s.hid.tx.Safe

/-- The interface is not opened (by the sketch or a `CONFIGURED` event) while a CDC transfer is in
flight whose busy flag an `end()` has cleared. -/
def OpensFree (s : Device) : DeviceOp → Prop
  | .begin _ | .event .configured => s.cdc.tx.txBusy = false → s.cdc.tx.inFlight = []
  | _ => True

/-- The invariant: both paths are owned, the HID path is free, and the CDC path is while the
interface is open. -/
structure TxOwned (s : Device) : Prop where
  cdc : s.cdc.tx.Owned
  hid : s.hid.tx.Owned
  hidFree : s.hid.tx.Free
  cdcFree : s.cdc.active = true → s.cdc.tx.Free

theorem TxOwned.txSafe (h : s.TxOwned) : s.TxSafe := ⟨h.cdc.toSafe, h.hid.toSafe⟩

theorem txOwned_initial (device : Bool) : (initial device).TxOwned :=
  ⟨TxPath.owned_initial, TxPath.owned_initial, fun _ => rfl, fun _ _ => rfl⟩

theorem TxOwned.closeEndpoints (h : s.TxOwned) : s.closeEndpoints.TxOwned :=
  ⟨h.cdc.cancel, h.hid.cancel, fun _ => rfl, fun _ _ => rfl⟩

theorem TxOwned.end_ (h : s.TxOwned) : TxOwned { s with cdc := s.cdc.end_ } :=
  ⟨h.cdc.release, h.hid, h.hidFree, fun ha => by cases ha⟩

theorem TxOwned.begin (h : s.TxOwned) (hfree : s.cdc.tx.Free) (baud : Nat) :
    TxOwned { s with cdc := s.cdc.begin baud } :=
  ⟨h.cdc, h.hid, h.hidFree, fun _ => hfree⟩

theorem TxOwned.event (h : s.TxOwned) {e : UsbdEvent} (hc : s.OpensFree (.event e)) :
    (s.busEvent e).TxOwned := by
  cases e with
  | reset | disconnected => exact h.closeEndpoints.end_
  | suspend => exact h.end_
  | configured =>
    have hopen := h.begin hc s.cdc.baud
    simp only [busEvent, usbEventHandler]
    split <;> exact ⟨hopen.cdc, hopen.hid, hopen.hidFree, hopen.cdcFree⟩
  | connected | resume | other => exact h

theorem TxOwned.write (h : s.TxOwned) (buffer : Option (List UInt8)) (ok : Bool) :
    TxOwned { s with cdc := (s.cdc.write buffer ok).1 } := by
  cases buffer with
  | none => exact h
  | some bytes =>
    simp only [USBCDC.write]
    split
    · exact h
    · next hopen =>
      simp only [Bool.or_eq_true, not_or, Bool.not_eq_true, Bool.not_eq_false'] at hopen
      obtain ⟨⟨⟨hactive, hidle⟩, -⟩, -⟩ := hopen
      have hfree := h.cdcFree hactive
      exact ⟨h.cdc.startWrite (hfree hidle) bytes ok, h.hid, h.hidFree,
        fun _ => hfree.startWrite hidle bytes ok⟩

theorem TxOwned.sendReport (h : s.TxOwned) (buffer : Option (List UInt8)) (ok : Bool) :
    TxOwned { s with hid := s.hid.sendReport buffer ok } := by
  cases buffer with
  | none => exact h
  | some bytes =>
    simp only [USBHID.sendReport]
    split
    · exact h
    · next hopen =>
      simp only [Bool.or_eq_true, not_or, Bool.not_eq_true] at hopen
      obtain ⟨⟨hidle, -⟩, -⟩ := hopen
      exact ⟨h.cdc, h.hid.startWrite (h.hidFree hidle) bytes ok,
        h.hidFree.startWrite hidle bytes ok, h.cdcFree⟩

theorem TxOwned.of_tx (h : s.TxOwned) {s' : Device} (hcdc : s'.cdc.tx = s.cdc.tx)
    (hactive : s'.cdc.active = s.cdc.active) (hhid : s'.hid = s.hid) : s'.TxOwned := by
  refine ⟨by rw [hcdc]; exact h.cdc, by rw [hhid]; exact h.hid, by rw [hhid]; exact h.hidFree, ?_⟩
  rw [hcdc, hactive]
  exact h.cdcFree

theorem TxOwned.read (h : s.TxOwned) : s.read.1.TxOwned := by
  unfold Device.read
  split
  · exact h
  · simp only
    split <;> exact h.of_tx rfl rfl rfl

theorem TxOwned.cdcOutDone (h : s.TxOwned) (d : OutTransfer) : (s.cdcOutDone d).TxOwned := by
  have htx := USBCDC.tx_onOutData (c := s.cdc) d.bytes
  have hactive := USBCDC.active_onOutData (c := s.cdc) d.bytes
  unfold Device.cdcOutDone
  split
  · simp only [cdcOutCallback]
    split <;> exact h.of_tx htx hactive rfl
  · exact h

theorem TxOwned.step (h : s.TxOwned) {op : DeviceOp} (hc : s.OpensFree op) :
    (s.step op).TxOwned := by
  cases op with
  | event e => exact h.event hc
  | cdcOutDone d => exact h.cdcOutDone d
  | cdcInDone =>
    exact ⟨h.cdc.complete, h.hid, h.hidFree, fun ha => (h.cdcFree ha).complete h.cdc⟩
  | hidOutDone =>
    simp only [Device.step, hidOutDone]
    split
    · exact h.of_tx rfl rfl rfl
    · exact h
  | hidInDone => exact ⟨h.cdc, h.hid.complete, h.hidFree.complete h.hid, h.cdcFree⟩
  | begin baud => exact h.begin hc baud
  | end_ => exact h.end_
  | read => exact h.read
  | write buffer ok => exact h.write buffer ok
  | sendReport buffer ok => exact h.sendReport buffer ok
  | available | peek | availableForWrite => exact h

/-- Opening the interface over such a transfer is one write away from rewriting its buffer. -/
theorem rewritten_of_open {baud : Nat} (hbusy : s.cdc.tx.txBusy = false)
    (hfly : s.cdc.tx.inFlight ≠ []) (byte : UInt8) :
    ¬ TxSafe ((s.step (.begin baud)).step (.write (some [byte]) true)) := by
  intro h
  have hkept := h.1.kept
  simp [step, USBCDC.begin, USBCDC.write, hbusy, cdcTxSize, TxPath.startWrite, hfly] at hkept

end Device

end Bl616cl.Usb
