import Bl616cl.Lib.Run
import Bl616cl.Usb.Device

/-!
# Transmit paths across bus events

When the bus comes up (again), the device is usable: the CDC interface is active and both transmit
paths take a packet unless one is in flight. `usb_event_handler` looks after the CDC path only, by
`begin` and `end`; it never clears the busy flag of the HID path, and on a resume it does nothing at
all. `revived_iff` says which histories leave the device usable.
-/

namespace Bl616cl.Usb

open Bl616cl.Lib

namespace TxPath

/-- Busy for a transfer that will not complete. -/
def Stuck (p : TxPath) : Prop := p.txBusy = true ∧ p.inFlight = []

/-- Busy exactly while its one transfer is in flight. -/
structure Steady (p : TxPath) : Prop where
  single : p.inFlight.length ≤ 1
  busy_iff : p.txBusy = true ↔ p.inFlight ≠ []

end TxPath

/-! ## What should hold when the bus comes up -/

/-- A `write` of any packet is started. -/
def USBCDC.Accepts (c : USBCDC) : Prop :=
  ∀ bytes : List UInt8, bytes ≠ [] → bytes.length ≤ cdcTxSize →
    (c.write (some bytes) true).2 = bytes.length

/-- A report is started. -/
def USBHID.Accepts (h : USBHID) : Prop :=
  ∀ bytes : List UInt8, bytes ≠ [] → bytes.length ≤ hidTxSize →
    (h.sendReport (some bytes) true).tx.started = h.tx.started + 1

structure Device.Usable (s : Device) : Prop where
  active : s.cdc.active = true
  cdc : s.cdc.tx.inFlight = [] → s.cdc.Accepts
  hid : s.hid.tx.inFlight = [] → s.hid.Accepts

/-- The device and the history of its bus. -/
structure Bus where
  device : Device
  configured : Bool
  /-- A `SUSPEND` of the configured device was the last of the events that change this. -/
  suspended : Bool
  /-- The interface has been opened since the last `SUSPEND`. -/
  reopened : Bool
  /-- A `RESET` or `DISCONNECTED` came while a HID report was in flight. -/
  reportLost : Bool
  /-- The last operation was a `CONFIGURED`, or a `RESUME` from such a `SUSPEND`. -/
  up : Bool

namespace Bus

def initial (device : Bool) : Bus := ⟨Device.initial device, false, false, true, false, false⟩

variable (b : Bus)

/-- What a bus event does to the history. -/
def history : UsbdEvent → Bus
  | .reset | .disconnected => { b with
      configured := false
      suspended := false
      reportLost := b.reportLost || !b.device.hid.tx.inFlight.isEmpty
      up := false }
  | .suspend => { b with suspended := b.configured, reopened := false, up := false }
  | .configured => { b with configured := true, reopened := true, up := true }
  | .resume => { b with suspended := false, up := b.suspended }
  | .connected | .other => { b with up := false }

def step (op : DeviceOp) : Bus :=
  match op with
  | .event e => { b.history e with device := b.device.step op }
  | .begin _ => { b with device := b.device.step op, reopened := true, up := false }
  | _ => { b with device := b.device.step op, up := false }

/-- The device is usable whenever the bus comes up. -/
def Ready (b : Bus) : Prop := b.up = true → b.device.Usable

/-- The sketch does not call `end`. -/
def Open (_ : Bus) (op : DeviceOp) : Prop := op ≠ .end_

/-- When the bus comes up no report has ever been lost, and after a `SUSPEND` the interface has been
opened. -/
def Revived (b : Bus) : DeviceOp → Prop
  | .event .configured => b.reportLost = false
  | .event .resume => b.suspended = true → b.reportLost = false ∧ b.reopened = true
  | _ => True

/-- The invariant over runs without `end`. -/
structure Inv (b : Bus) : Prop where
  cdcTx : ¬ b.device.cdc.tx.Stuck
  hidSteady : b.reportLost = false → b.device.hid.tx.Steady
  hidStuck : b.reportLost = true → b.device.hid.tx.Stuck
  active : b.suspended = true → b.device.cdc.active = b.reopened
  ready : b.Ready

end Bus

/-! ## Paths -/

namespace TxPath

variable {p : TxPath}

theorem steady_initial : initial.Steady := ⟨Nat.zero_le 1, by decide⟩

theorem Steady.startWrite (h : p.Steady) (hidle : p.txBusy = false) (bytes : List UInt8)
    (ok : Bool) : (p.startWrite bytes ok).1.Steady := by
  have hnone : p.inFlight = [] := by
    rw [← not_not (a := p.inFlight = []), ← ne_eq, ← h.busy_iff, hidle]
    decide
  cases ok with
  | true => exact ⟨by simp [TxPath.startWrite, hnone], by simp [TxPath.startWrite]⟩
  | false => exact ⟨by simp [TxPath.startWrite, hnone], by simp [TxPath.startWrite, hnone]⟩

theorem Steady.complete (h : p.Steady) : p.complete.Steady := by
  unfold TxPath.complete
  cases hf : p.inFlight with
  | nil => exact h
  | cons x rest =>
    have hrest : rest = [] := by
      have hone := h.single
      rw [hf, List.length_cons] at hone
      exact List.length_eq_zero_iff.mp (by omega)
    exact ⟨by simp [onTxComplete, hrest], by simp [onTxComplete, hrest]⟩

theorem Steady.cancel (h : p.Steady) (hnone : p.inFlight = []) : p.cancel.Steady := by
  have hbusy := h.busy_iff
  rw [hnone] at hbusy
  exact ⟨Nat.zero_le 1, hbusy⟩

theorem Steady.stuck_cancel (h : p.Steady) (hsome : p.inFlight ≠ []) : p.cancel.Stuck :=
  ⟨h.busy_iff.mpr hsome, rfl⟩

theorem Steady.not_stuck (h : p.Steady) : ¬ p.Stuck := fun hs => h.busy_iff.mp hs.1 hs.2

theorem Stuck.complete (h : p.Stuck) : p.complete.Stuck := by
  unfold TxPath.complete
  rw [h.2]
  exact h

theorem not_stuck_complete (h : ¬ p.Stuck) : ¬ p.complete.Stuck := by
  unfold TxPath.complete
  split
  · exact h
  · rintro ⟨hbusy, -⟩
    cases hbusy

theorem not_stuck_startWrite (bytes : List UInt8) (ok : Bool) :
    ¬ (p.startWrite bytes ok).1.Stuck := by
  cases ok with
  | true =>
    rintro ⟨-, hnone⟩
    simp [TxPath.startWrite] at hnone
  | false =>
    rintro ⟨hbusy, -⟩
    cases hbusy

end TxPath

theorem USBCDC.accepts_iff {c : USBCDC} : c.Accepts ↔ c.active = true ∧ c.tx.txBusy = false := by
  constructor
  · intro h
    have hone := h [0] (List.cons_ne_nil 0 []) (by decide)
    cases ha : c.active <;> cases hb : c.tx.txBusy <;> simp [write, ha, hb] at hone ⊢
  · rintro ⟨ha, hb⟩ bytes hne hlen
    have hpos : bytes.length ≠ 0 := mt List.length_eq_zero_iff.mp hne
    simp [write, ha, hb, hne, Nat.not_lt.mpr hlen, TxPath.startWrite]

theorem USBHID.accepts_iff {h : USBHID} : h.Accepts ↔ h.tx.txBusy = false := by
  constructor
  · intro ha
    have hone := ha [0] (List.cons_ne_nil 0 []) (by decide)
    cases hb : h.tx.txBusy <;> simp [sendReport, hb] at hone ⊢
  · intro hb bytes hne hlen
    simp [sendReport, hb, hne, Nat.not_lt.mpr hlen, TxPath.startWrite]

theorem Device.usable_iff {s : Device} :
    s.Usable ↔ s.cdc.active = true ∧ ¬ s.cdc.tx.Stuck ∧ ¬ s.hid.tx.Stuck := by
  constructor
  · intro h
    refine ⟨h.active, fun ⟨hbusy, hnone⟩ => ?_, fun ⟨hbusy, hnone⟩ => ?_⟩
    · rw [(USBCDC.accepts_iff.mp (h.cdc hnone)).2] at hbusy
      cases hbusy
    · rw [USBHID.accepts_iff.mp (h.hid hnone)] at hbusy
      cases hbusy
  · rintro ⟨ha, hcdc, hhid⟩
    refine ⟨ha, fun hnone => USBCDC.accepts_iff.mpr ⟨ha, ?_⟩, fun hnone => ?_⟩
    · exact Bool.eq_false_iff.mpr fun hbusy => hcdc ⟨hbusy, hnone⟩
    · exact USBHID.accepts_iff.mpr (Bool.eq_false_iff.mpr fun hbusy => hhid ⟨hbusy, hnone⟩)

/-! ## Runs -/

namespace Device

variable {s : Device}

/-- What the transmit paths and the active flag are not touched by. -/
structure SameTx (s s' : Device) : Prop where
  cdcTx : s'.cdc.tx = s.cdc.tx
  active : s'.cdc.active = s.cdc.active
  hid : s'.hid = s.hid

theorem sameTx_read : SameTx s s.read.1 := by
  unfold Device.read
  split
  · exact ⟨rfl, rfl, rfl⟩
  · simp only
    split <;> exact ⟨rfl, rfl, rfl⟩

theorem sameTx_cdcOutDone (d : OutTransfer) : SameTx s (s.cdcOutDone d) := by
  have htx := USBCDC.tx_onOutData (c := s.cdc) d.bytes
  have hactive := USBCDC.active_onOutData (c := s.cdc) d.bytes
  unfold Device.cdcOutDone
  split
  · simp only [cdcOutCallback]
    split <;> exact ⟨htx, hactive, rfl⟩
  · exact ⟨rfl, rfl, rfl⟩

theorem sameTx_hidOutDone : SameTx s s.hidOutDone := by
  unfold Device.hidOutDone
  split <;> exact ⟨rfl, rfl, rfl⟩

theorem hid_configured : (s.busEvent .configured).hid = s.hid := by
  simp only [busEvent, usbEventHandler]
  split <;> rfl

end Device

namespace Bus

variable {b : Bus}

theorem inv_initial (device : Bool) : (initial device).Inv where
  cdcTx := TxPath.steady_initial.not_stuck
  hidSteady _ := TxPath.steady_initial
  hidStuck h := nomatch h
  active h := nomatch h
  ready h := nomatch h

theorem Inv.quiet (h : b.Inv) {s' : Device} (hsame : b.device.SameTx s') :
    Inv { b with device := s', up := false } := by
  refine ⟨?_, fun hr => ?_, fun hr => ?_, fun hs => ?_, fun hup => by cases hup⟩
  · show ¬ s'.cdc.tx.Stuck
    rw [hsame.cdcTx]
    exact h.cdcTx
  · show s'.hid.tx.Steady
    rw [hsame.hid]
    exact h.hidSteady hr
  · show s'.hid.tx.Stuck
    rw [hsame.hid]
    exact h.hidStuck hr
  · exact hsame.active.trans (h.active hs)

theorem Inv.cdcPath (h : b.Inv) {tx : TxPath} (htx : ¬ tx.Stuck) :
    Inv { b with
      device := { b.device with cdc := { b.device.cdc with tx := tx } }
      up := false } :=
  ⟨htx, h.hidSteady, h.hidStuck, h.active, fun hup => by cases hup⟩

theorem Inv.hidPath (h : b.Inv) {tx : TxPath} (hsteady : b.device.hid.tx.Steady → tx.Steady)
    (hstuck : b.device.hid.tx.Stuck → tx.Stuck) :
    Inv { b with
      device := { b.device with hid := { b.device.hid with tx := tx } }
      up := false } :=
  ⟨h.cdcTx, fun hr => hsteady (h.hidSteady hr), fun hr => hstuck (h.hidStuck hr), h.active,
    fun hup => by cases hup⟩

theorem Inv.write (h : b.Inv) (buffer : Option (List UInt8)) (ok : Bool) :
    (b.step (.write buffer ok)).Inv := by
  cases buffer with
  | none => exact h.quiet ⟨rfl, rfl, rfl⟩
  | some bytes =>
    simp only [step, Device.step, USBCDC.write]
    split
    · exact h.quiet ⟨rfl, rfl, rfl⟩
    · exact h.cdcPath (TxPath.not_stuck_startWrite bytes ok)

theorem Inv.sendReport (h : b.Inv) (buffer : Option (List UInt8)) (ok : Bool) :
    (b.step (.sendReport buffer ok)).Inv := by
  cases buffer with
  | none => exact h.quiet ⟨rfl, rfl, rfl⟩
  | some bytes =>
    simp only [step, Device.step, USBHID.sendReport]
    split
    · exact h.quiet ⟨rfl, rfl, rfl⟩
    · next hopen =>
      simp only [Bool.or_eq_true, not_or, Bool.not_eq_true] at hopen
      obtain ⟨⟨hidle, -⟩, -⟩ := hopen
      refine h.hidPath (fun hs => hs.startWrite hidle bytes ok) fun hs => ?_
      rw [hs.1] at hidle
      cases hidle

/-- A reset takes the transfers away: the CDC path starts over, a HID path that was busy is
stuck. -/
theorem Inv.reset (h : b.Inv) {e : UsbdEvent} (he : e = .reset ∨ e = .disconnected) :
    (b.step (.event e)).Inv := by
  have hcdc : ¬ (b.device.busEvent e).cdc.tx.Stuck := by
    rcases he with rfl | rfl <;> exact fun hs => by cases hs.1
  have hhid : (b.device.busEvent e).hid.tx = b.device.hid.tx.cancel := by
    rcases he with rfl | rfl <;> rfl
  have hlost : (b.history e).reportLost =
      (b.reportLost || !b.device.hid.tx.inFlight.isEmpty) := by
    rcases he with rfl | rfl <;> rfl
  refine ⟨hcdc, fun hr => ?_, fun hr => ?_, fun hs => ?_, fun hup => ?_⟩
  · show (b.device.busEvent e).hid.tx.Steady
    rw [show (b.history e).reportLost = _ from hr] at hlost
    have hfree := Bool.or_eq_false_iff.mp hlost.symm
    rw [hhid]
    exact (h.hidSteady hfree.1).cancel (by simpa using hfree.2)
  · show (b.device.busEvent e).hid.tx.Stuck
    rw [show (b.history e).reportLost = _ from hr] at hlost
    rw [hhid]
    cases hbefore : b.reportLost with
    | true => exact ⟨(h.hidStuck hbefore).1, rfl⟩
    | false =>
      rw [hbefore] at hlost
      exact (h.hidSteady hbefore).stuck_cancel (by simpa using hlost.symm)
  · rcases he with rfl | rfl <;> cases hs
  · rcases he with rfl | rfl <;> cases hup

theorem Inv.event (h : b.Inv) {e : UsbdEvent} (hc : b.Revived (.event e)) :
    (b.step (.event e)).Inv := by
  cases e with
  | reset => exact h.reset (Or.inl rfl)
  | disconnected => exact h.reset (Or.inr rfl)
  | suspend =>
    refine ⟨fun hs => ?_, h.hidSteady, h.hidStuck, fun _ => rfl, fun hup => by cases hup⟩
    cases hs.1
  | configured =>
    have hlost : b.reportLost = false := hc
    have hcdc : (b.device.busEvent .configured).cdc = b.device.cdc.begin b.device.cdc.baud :=
      Device.configured_cdc
    have hhid : (b.device.busEvent .configured).hid = b.device.hid := Device.hid_configured
    have htx : ¬ (b.device.busEvent .configured).cdc.tx.Stuck := by
      rw [hcdc]
      exact h.cdcTx
    have hactive : (b.device.busEvent .configured).cdc.active = true := by
      rw [hcdc]
      rfl
    have hsteady : (b.device.busEvent .configured).hid.tx.Steady := by
      rw [hhid]
      exact h.hidSteady hlost
    refine ⟨htx, fun _ => hsteady, fun hr => ?_, fun _ => hactive, fun _ => ?_⟩
    · cases hlost.symm.trans hr
    · exact Device.usable_iff.mpr ⟨hactive, htx, hsteady.not_stuck⟩
  | resume =>
    have hdone : ∀ hs : false = true, b.device.cdc.active = b.reopened := fun hs => by cases hs
    refine ⟨h.cdcTx, h.hidSteady, h.hidStuck, hdone, fun hup => ?_⟩
    obtain ⟨hlost, hopened⟩ := hc hup
    have hactive : b.device.cdc.active = true := (h.active hup).trans hopened
    exact Device.usable_iff.mpr ⟨hactive, h.cdcTx, (h.hidSteady hlost).not_stuck⟩
  | connected => exact h.quiet ⟨rfl, rfl, rfl⟩
  | other => exact h.quiet ⟨rfl, rfl, rfl⟩

theorem Inv.step (h : b.Inv) {op : DeviceOp} (hopen : b.Open op) (hc : b.Revived op) :
    (b.step op).Inv := by
  cases op with
  | event e => exact h.event hc
  | cdcOutDone d => exact h.quiet (Device.sameTx_cdcOutDone d)
  | cdcInDone => exact h.cdcPath (TxPath.not_stuck_complete h.cdcTx)
  | hidOutDone => exact h.quiet Device.sameTx_hidOutDone
  | hidInDone => exact h.hidPath TxPath.Steady.complete TxPath.Stuck.complete
  | begin baud =>
    exact ⟨h.cdcTx, h.hidSteady, h.hidStuck, fun _ => rfl, fun hup => by cases hup⟩
  | end_ => exact absurd rfl hopen
  | read => exact h.quiet Device.sameTx_read
  | write buffer ok => exact h.write buffer ok
  | sendReport buffer ok => exact h.sendReport buffer ok
  | available | peek | availableForWrite => exact h.quiet ⟨rfl, rfl, rfl⟩

/-- A lost report, or an interface closed by the `SUSPEND`, shows when the bus comes up. -/
theorem revived_of_ready (h : b.Inv) (op : DeviceOp) (hr : (b.step op).Ready) : b.Revived op := by
  cases op with
  | event e =>
    cases e with
    | configured =>
      have husable : (b.device.busEvent .configured).Usable := hr rfl
      refine Bool.eq_false_iff.mpr fun hlost => ?_
      have hfree := (Device.usable_iff.mp husable).2.2
      rw [Device.hid_configured] at hfree
      exact hfree (h.hidStuck hlost)
    | resume =>
      intro hs
      have husable : b.device.Usable := hr hs
      refine ⟨Bool.eq_false_iff.mpr fun hlost => ?_, (h.active hs).symm.trans husable.active⟩
      exact (Device.usable_iff.mp husable).2.2 (h.hidStuck hlost)
    | reset | suspend | disconnected | connected | other => trivial
  | _ => trivial

/-- **Bus events**: in a run from power-up in which the sketch does not call `end`, the device is
usable whenever the bus comes up exactly if no `RESET` or `DISCONNECTED` before came while a HID
report was in flight, and the sketch has called `begin` between a `SUSPEND` and its `RESUME`. -/
theorem revived_iff (device : Bool) (ops : List DeviceOp)
    (hopen : Meets step Open (initial device) ops) :
    Along step Ready (initial device) ops ↔ Meets step Revived (initial device) ops :=
  along_iff_meets (I := Inv) (fun _ _ h ho hc => h.step ho hc) (fun _ h => h.ready)
    (fun _ op h _ hc hr => hc (revived_of_ready h op hr)) (inv_initial device) hopen

/-- A report in flight over a `SUSPEND`, with the interface opened again before the `RESUME`. -/
theorem revived_suspended : Along step Ready (initial true) [.event .configured,
    .sendReport (some [0x41]) true, .event .suspend, .begin 115200, .event .resume] := by
  refine (revived_iff true _ ?_).mpr ?_
  · simp [Meets, Open]
  · exact ⟨rfl, trivial, trivial, trivial, fun _ => ⟨rfl, rfl⟩, trivial⟩

/-- A report is in flight when the bus is reset; no report is accepted any more. -/
theorem report_lost : ¬ ∀ (device : Bool) (ops : List DeviceOp),
    Meets step Open (initial device) ops → Along step Ready (initial device) ops := by
  intro h
  have hrun := h true [.event .configured, .sendReport (some [0x41]) true, .event .reset,
    .event .configured] (by simp [Meets, Open])
  have husable : (runs step (initial true) [.event .configured, .sendReport (some [0x41]) true,
    .event .reset, .event .configured]).device.Usable := hrun.last rfl
  exact absurd (USBHID.accepts_iff.mp (husable.hid rfl)) (by decide)

/-- Without the sketch's help the interface is closed after every suspend. -/
theorem closed_after_suspend (hconf : b.configured = true) :
    ¬ ((b.step (.event .suspend)).step (.event .resume)).Ready := by
  intro hr
  have husable : (b.device.busEvent .suspend).Usable := hr hconf
  cases husable.active

end Bus

end Bl616cl.Usb
