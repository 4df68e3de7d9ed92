import Bl616cl.Lib.Run
import Bl616cl.Usb.Device

/-!
# CDC OUT: delivery and re-arming

The host's bytes go from the controller's OUT transfers through the receive ring to `read`.
Within one configuration of the device every byte is delivered once and in order; and the endpoint
stays in service as long as nothing but `read` empties the ring while it is disarmed.
-/

namespace Bl616cl.Usb

open Bl616cl.Lib

/-! ## Delivery -/

/-- What happens to the OUT direction between two bus events. -/
inductive ConsumerOp where
  | outDone (d : OutTransfer)
  | read
  | peek
  | available

/-- A device with the history of its OUT direction since it was configured. -/
structure Stream where
  s : Device
  /-- The bytes of the transfers completed. -/
  received : List UInt8
  /-- The bytes returned by `read`. -/
  returned : List UInt8
  /-- `onOutData` stored less than a transfer brought. -/
  truncated : Bool

namespace Stream

/-- Right after a bus reset and the configuration that follows it. -/
def start (s : Device) : Stream := ⟨(s.busEvent .reset).busEvent .configured, [], [], false⟩

def step (st : Stream) : ConsumerOp → Stream
  | .outDone d =>
    if st.s.cdcOut.armed then { st with
      s := st.s.cdcOutDone d
      received := st.received ++ d.bytes
      truncated := st.truncated || st.s.cdc.stored d.bytes != d.bytes }
    else st
  | .read => { st with
      s := st.s.read.1
      returned := st.returned ++ st.s.read.2.toList }
  | .peek | .available => st

/-- What CDC OUT promises. -/
structure Delivers (st : Stream) : Prop where
  inOrder : st.returned <+: st.received
  whole : st.truncated = false
  available : st.s.cdc.available = (st.received.length : Int) - st.returned.length
  /-- What is not yet returned is what `read` and `peek` find, from its first byte. -/
  read : st.s.read.2 = (st.received.drop st.returned.length).head?
  peek : st.s.cdc.peek = (st.received.drop st.returned.length).head?
  once : st.s.cdcOut.rearmed = false
  room : st.s.cdcOut.armed = true → st.s.cdc.rxRoom ≥ cdcRxSize

/-- The invariant behind it: an armed endpoint faces an empty ring, and the ring holds the bytes
received and not returned. -/
structure Flows (st : Stream) : Prop where
  active : st.s.cdc.active = true
  rxOk : st.s.cdc.RxOk
  content : st.returned ++ st.s.cdc.rxBytes = st.received
  whole : st.truncated = false
  once : st.s.cdcOut.rearmed = false
  empty : st.s.cdcOut.armed = true → st.s.cdc.rxCount = 0

variable {st : Stream}

theorem Flows.rest (h : st.Flows) : st.received.drop st.returned.length = st.s.cdc.rxBytes := by
  rw [← h.content, List.drop_left]

theorem rxBytes_nil {c : USBCDC} (h : c.rxCount = 0) : c.rxBytes = [] :=
  List.eq_nil_of_length_eq_zero (USBCDC.length_rxBytes.trans h)

theorem Flows.read_head (h : st.Flows) : st.s.read.2 = st.s.cdc.rxBytes.head? := by
  by_cases hpos : st.s.cdc.rxCount = 0
  · rw [Device.read_empty hpos, rxBytes_nil hpos]
    rfl
  · rw [Device.read_eq h.rxOk hpos, h.rxOk.rxBytes_pop hpos]
    rfl

theorem Flows.peek_head (h : st.Flows) : st.s.cdc.peek = st.s.cdc.rxBytes.head? := by
  unfold USBCDC.peek
  split
  · next hzero =>
    rw [rxBytes_nil hzero]
    rfl
  · next hpos =>
    rw [h.rxOk.rxBytes_pop hpos]
    rfl

theorem Flows.delivers (h : st.Flows) : st.Delivers where
  inOrder := ⟨_, h.content⟩
  whole := h.whole
  available := by
    rw [h.rxOk.available_eq, ← h.content, List.length_append, USBCDC.length_rxBytes]
    omega
  read := by rw [h.rest, h.read_head]
  peek := by rw [h.rest, h.peek_head]
  once := h.once
  room ha := h.rxOk.room_iff.mpr (h.empty ha)

theorem flows_start (s : Device) : (start s).Flows where
  active := by simp [start, USBCDC.begin]
  rxOk := by
    rw [start, Device.configured_cdc]
    exact USBCDC.rxOk_end.begin _
  content := by
    rw [start, Device.configured_cdc]
    rfl
  whole := rfl
  once := by
    rw [start, Device.configured_cdcOut]
    rfl
  empty _ := by
    rw [start, Device.configured_cdc]
    rfl

theorem Flows.outDone (h : st.Flows) (d : OutTransfer) : (st.step (.outDone d)).Flows := by
  by_cases ha : st.s.cdcOut.armed = true
  · have hroom : d.bytes.length ≤ st.s.cdc.rxRoom :=
      Nat.le_trans d.fits (h.rxOk.room_iff.mpr (h.empty ha))
    have hstored := USBCDC.stored_eq h.active hroom
    have hbytes := h.rxOk.rxBytes_onOutData d.bytes
    rw [hstored] at hbytes
    have hcontent : st.returned ++ (st.s.cdc.onOutData d.bytes).rxBytes =
        st.received ++ d.bytes := by
      rw [hbytes, ← List.append_assoc, h.content]
    simp only [step, if_pos ha, Device.cdcOutDone_eq h.rxOk.toRxBounds ha, hstored]
    have hactive : (st.s.cdc.onOutData d.bytes).active = true := by
      rw [USBCDC.active_onOutData, h.active]
    have hwhole : (st.truncated || d.bytes != d.bytes) = false := by simp [h.whole]
    by_cases hempty : (st.s.cdc.onOutData d.bytes).rxCount = 0
    · simp only [if_pos hempty]
      exact ⟨hactive, h.rxOk.onOutData _, hcontent, hwhole, h.once, fun _ => hempty⟩
    · simp only [if_neg hempty]
      exact ⟨hactive, h.rxOk.onOutData _, hcontent, hwhole, h.once, by simp⟩
  · simp only [step, if_neg ha]
    exact h

theorem Flows.read (h : st.Flows) : (st.step .read).Flows := by
  by_cases hpos : st.s.cdc.rxCount = 0
  · simpa [step, Device.read_empty hpos] using h
  · have hoff : st.s.cdcOut.armed = false := by
      by_contra hon
      exact hpos (h.empty (by simpa using hon))
    have hpop := h.rxOk.rxBytes_pop hpos
    have hcontent : st.returned ++ [st.s.cdc.rxBuffer st.s.cdc.rxTail] ++
        st.s.cdc.pop.rxBytes = st.received := by
      rw [← h.content, hpop, List.append_assoc, List.singleton_append]
    simp only [step, Device.read_eq h.rxOk hpos, Option.toList_some]
    by_cases hlast : st.s.cdcOutRearmPending ∧ st.s.cdc.rxCount = 1
    · simp only [if_pos hlast]
      refine ⟨h.active, h.rxOk.pop hpos, hcontent, h.whole, ?_, fun _ => ?_⟩
      · simp [Device.armCdcOut, OutEndpoint.startRead, h.once, hoff]
      · simp only [Device.armCdcOut, h.rxOk.rxCount_pop hpos]
        omega
    · simp only [if_neg hlast]
      exact ⟨h.active, h.rxOk.pop hpos, hcontent, h.whole, h.once, by simp [hoff]⟩

theorem Flows.step (h : st.Flows) (op : ConsumerOp) : (st.step op).Flows := by
  cases op with
  | outDone d => exact h.outDone d
  | read => exact h.read
  | peek => exact h
  | available => exact h

/-- **CDC OUT delivers every byte once, in order.** -/
theorem cdc_out_delivers (s : Device) (ops : List ConsumerOp) :
    Along step Delivers (start s) ops :=
  (along_of_meets (C := fun _ _ => True) (fun _ op h _ => h.step op) (flows_start s)
    (meets_of_forall (fun _ _ => trivial) _ _)).mono fun _ h => h.delivers

end Stream

/-! ## Staying in service -/

/-- A device and whether it is configured: from a `CONFIGURED` event to the next `RESET` or
`DISCONNECTED`. -/
structure Session where
  s : Device
  configured : Bool

namespace Session

def start (device : Bool) : Session := ⟨Device.initial device, false⟩

def step (se : Session) (op : DeviceOp) : Session where
  s := se.s.step op
  configured := match op with
    | .event .configured => true
    | .event .reset | .event .disconnected => false
    | _ => se.configured

/-- The OUT endpoint is armed, or the consumer will arm it once it has drained the ring. -/
def InService (se : Session) : Prop :=
  se.configured = true → se.s.cdcOut.armed = true ∨
    se.s.cdcOutRearmPending = true ∧ 0 < se.s.cdc.rxCount

instance (se : Session) : Decidable se.InService :=
  inferInstanceAs (Decidable (_ → _))

/-- An `end()`, from the sketch or a `SUSPEND`, comes while the endpoint is armed. -/
def EndsArmed (se : Session) : DeviceOp → Prop
  | .end_ | .event .suspend => se.configured = true → se.s.cdcOut.armed = true
  | _ => True

/-- The invariant over runs. -/
structure Serves (se : Session) : Prop where
  rxOk : se.s.cdc.RxOk
  inService : se.InService

variable {se : Session}

theorem serves_start (device : Bool) : (start device).Serves :=
  ⟨USBCDC.rxOk_initial, fun h => absurd h (by simp [start])⟩

theorem Serves.event (h : se.Serves) {e : UsbdEvent} (hc : se.EndsArmed (.event e)) :
    (se.step (.event e)).InService := by
  intro hconf
  cases e with
  | reset => cases hconf
  | disconnected => cases hconf
  | suspend => exact Or.inl (hc hconf)
  | configured =>
    left
    simp only [step, Device.step, Device.configured_cdcOut]
    rfl
  | connected => exact h.inService hconf
  | resume => exact h.inService hconf
  | other => exact h.inService hconf

theorem Serves.cdcOutDone (h : se.Serves) (d : OutTransfer) :
    (se.step (.cdcOutDone d)).InService := by
  intro hconf
  cases ha : se.s.cdcOut.armed with
  | false =>
    simp only [step, Device.step, Device.cdcOutDone_disarmed ha]
    exact h.inService hconf
  | true =>
    simp only [step, Device.step, Device.cdcOutDone_eq h.rxOk.toRxBounds ha]
    split
    · exact Or.inl rfl
    · next hbytes => exact Or.inr ⟨rfl, Nat.pos_of_ne_zero hbytes⟩

theorem Serves.read (h : se.Serves) : (se.step .read).InService := by
  intro hconf
  by_cases hpos : se.s.cdc.rxCount = 0
  · simp only [step, Device.step, Device.read_empty hpos]
    exact h.inService hconf
  · simp only [step, Device.step, Device.read_eq h.rxOk hpos]
    by_cases hlast : se.s.cdcOutRearmPending ∧ se.s.cdc.rxCount = 1
    · simp only [if_pos hlast]
      exact Or.inl rfl
    · simp only [if_neg hlast]
      rcases h.inService hconf with ha | ⟨hpend, hcount⟩
      · exact Or.inl ha
      · have hmore : se.s.cdc.rxCount ≠ 1 := fun h1 => hlast ⟨hpend, h1⟩
        have hpop := h.rxOk.rxCount_pop hpos
        refine Or.inr ⟨hpend, ?_⟩
        show 0 < se.s.cdc.pop.rxCount
        omega

theorem Serves.step (h : se.Serves) {op : DeviceOp} (hc : se.EndsArmed op) :
    (se.step op).Serves := by
  refine ⟨Device.rxOk_step h.rxOk op, ?_⟩
  cases op with
  | event e => exact h.event hc
  | cdcOutDone d => exact h.cdcOutDone d
  | read => exact h.read
  | end_ => exact fun hconf => Or.inl (hc hconf)
  | write buffer ok =>
    simp only [Session.step, Device.step, USBCDC.write]
    split
    · exact h.inService
    · split <;> exact h.inService
  | hidOutDone =>
    simp only [Session.step, Device.step, Device.hidOutDone]
    split <;> exact h.inService
  | _ => exact h.inService

/-- An `end()` on a disarmed endpoint leaves nothing in the ring that could wake it. -/
theorem stranded_of_end {op : DeviceOp} (hc : ¬ se.EndsArmed op) :
    ¬ (se.step op).InService := by
  have hend : ∀ {s : Device}, s.cdcOut.armed = false → ∀ {c : Bool}, c = true →
      ¬ InService ⟨{ s with cdc := s.cdc.end_ }, c⟩ := by
    intro s ha c hconf hin
    rcases hin hconf with h | ⟨-, h⟩
    · simp only [ha] at h
      cases h
    · exact Nat.lt_irrefl 0 h
  cases op with
  | end_ =>
    simp only [EndsArmed, Classical.not_imp, Bool.not_eq_true] at hc
    exact hend hc.2 hc.1
  | event e =>
    cases e with
    | suspend =>
      simp only [EndsArmed, Classical.not_imp, Bool.not_eq_true] at hc
      exact hend hc.2 hc.1
    | _ => exact absurd trivial hc
  | _ => exact absurd trivial hc

/-- **Never stranded**: along any run from power-up the OUT endpoint stays in service if and only
if every `end()` and `SUSPEND` finds it armed. -/
theorem inService_iff (device : Bool) (ops : List DeviceOp) :
    Along step InService (start device) ops ↔ Meets step EndsArmed (start device) ops :=
  along_iff_meets (V := fun _ _ => True) (fun _ _ h _ hc => h.step hc) (fun _ h => h.inService)
    (fun _ _ _ _ hc => stranded_of_end hc) (serves_start device)
    (meets_of_forall (fun _ _ => trivial) _ _)

/-- One unread byte, and the sketch ends the interface: nothing arms the endpoint again. -/
theorem end_strands : ¬ Along step InService (start true)
    [.event .reset, .event .configured, .cdcOutDone ⟨[0x41], by decide⟩, .end_, .begin 115200,
      .read] :=
  fun h => absurd h.last (by decide)

end Session

end Bl616cl.Usb
