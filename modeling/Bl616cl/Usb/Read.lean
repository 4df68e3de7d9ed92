import Bl616cl.Lib.Run
import Bl616cl.Usb.Device

/-!
# Interrupts inside `USBCDC::read`

`read` as its loads and stores, with the bus events and the OUT completions as interrupts that run
to completion between any two of them. `rx_tail_` and `rx_count_` are each loaded, changed and
stored back with no protection, so what an interrupt did to them in between is overwritten.
-/

namespace Bl616cl.Usb

open Bl616cl.Lib

/-- How far a call of `read` has come, with what it has loaded. -/
inductive ReadPc where
  | idle
  /-- `rx_count_` was not 0. -/
  | checked
  | indexLoaded (index : Nat)
  | valueLoaded (value : UInt8)
  | tailLoaded (value : UInt8) (tail : Nat)
  | tailStored (value : UInt8)
  | countLoaded (value : UInt8) (count : Nat)
  | countStored (value : UInt8)
  | pendingSeen (value : UInt8)
  | roomSeen (value : UInt8)
  | pendingCleared (value : UInt8)
  deriving DecidableEq, Repr

/-- A device, the reader's position, and what its calls of `read` have returned. -/
structure Cpu where
  s : Device
  pc : ReadPc
  results : List (Option UInt8)

inductive CpuStep where
  | read
  | event (e : UsbdEvent)
  | outDone (d : OutTransfer)

namespace Cpu

def start (device : Bool) : Cpu := ⟨Device.initial device, .idle, []⟩

variable (m : Cpu)

def ret (value : Option UInt8) : Cpu := { m with pc := .idle, results := m.results ++ [value] }

def storeTail (tail : Nat) : Cpu :=
  { m with s := { m.s with cdc := { m.s.cdc with rxTail := tail } } }

def storeCount (count : Nat) : Cpu :=
  { m with s := { m.s with cdc := { m.s.cdc with rxCount := count } } }

/-- The next load or store of `read`, with the test that follows a load. -/
def advance : Cpu :=
  match m.pc with
  | .idle => if m.s.cdc.rxCount = 0 then m.ret none else { m with pc := .checked }
  | .checked => { m with pc := .indexLoaded m.s.cdc.rxTail }
  | .indexLoaded index => { m with pc := .valueLoaded (m.s.cdc.rxBuffer index) }
  | .valueLoaded value => { m with pc := .tailLoaded value m.s.cdc.rxTail }
  | .tailLoaded value tail => { m.storeTail ((tail + 1) % rxSize) with pc := .tailStored value }
  | .tailStored value => { m with pc := .countLoaded value m.s.cdc.rxCount }
  | .countLoaded value count => { m.storeCount (sub32 count 1) with pc := .countStored value }
  | .countStored value =>
    if m.s.cdcOutRearmPending then { m with pc := .pendingSeen value } else m.ret (some value)
  | .pendingSeen value =>
    if m.s.cdc.rxRoom ≥ cdcRxSize then { m with pc := .roomSeen value } else m.ret (some value)
  | .roomSeen value =>
    { m with s := { m.s with cdcOutRearmPending := false }, pc := .pendingCleared value }
  | .pendingCleared value => { m with s := m.s.armCdcOut }.ret (some value)

def step (m : Cpu) : CpuStep → Cpu
  | .read => m.advance
  | .event e => { m with s := m.s.busEvent e }
  | .outDone d => { m with s := m.s.cdcOutDone d }

/-- Left alone, the loads and stores of one call do what `Device.read` does. -/
theorem read_uninterrupted (h : m.s.cdc.RxOk) (hidle : m.pc = .idle) :
    ∃ k, runs step m (List.replicate k .read) =
      { m with s := m.s.read.1, results := m.results ++ [m.s.read.2] } := by
  obtain ⟨s, pc, results⟩ := m
  simp only at h hidle
  subst hidle
  by_cases hpos : s.cdc.rxCount = 0
  · refine ⟨1, ?_⟩
    simp [step, advance, hpos, ret, Device.read_empty hpos]
  · have hroom : s.cdc.pop.rxRoom ≥ cdcRxSize ↔ s.cdc.rxCount = 1 := by
      rw [(h.pop hpos).room_iff, h.rxCount_pop hpos]
      omega
    rw [Device.read_eq h hpos]
    by_cases hpend : s.cdcOutRearmPending = true
    · by_cases hone : s.cdc.rxCount = 1
      · have hfull := hroom.mpr hone
        simp only [USBCDC.pop] at hfull
        rw [if_pos ⟨hpend, hone⟩]
        refine ⟨11, ?_⟩
        simp [step, advance, hpos, ret, storeTail, storeCount, hpend, hfull, USBCDC.pop]
      · have hfew := mt hroom.mp hone
        simp only [USBCDC.pop] at hfew
        rw [if_neg fun hlast => hone hlast.2]
        refine ⟨9, ?_⟩
        simp [step, advance, hpos, ret, storeTail, storeCount, hpend, hfew, USBCDC.pop]
    · rw [if_neg fun hlast => hpend hlast.1]
      refine ⟨8, ?_⟩
      simp [step, advance, hpos, ret, storeTail, storeCount, hpend, USBCDC.pop]

/-! ## What must not come between -/

/-- The step does not lose an update of the ring: `read` stores back an `rx_tail_` that is still
there and counts down from a byte that is still there, no `end()` comes between the stores of
`rx_tail_` and `rx_count_` (unless that was the last byte), and no OUT transfer moves `rx_head_`
between the load and the store of `rx_count_`. -/
def clear (m : Cpu) : CpuStep → Bool
  | .read =>
    match m.pc with
    | .tailLoaded _ tail => tail == m.s.cdc.rxTail
    | .tailStored _ => m.s.cdc.rxCount != 0
    | _ => true
  | .event e =>
    match m.pc with
    | .tailStored _ => !e.ends
    | .countLoaded _ count => !e.ends || count == 1
    | _ => true
  | .outDone d =>
    match m.pc with
    | .countLoaded _ _ => !m.s.cdcOut.armed || (m.s.cdc.stored d.bytes).length % rxSize == 0
    | _ => true

/-- What should hold in every state. -/
structure CountOk : Prop extends USBCDC.RxBounds m.s.cdc where
  available : 0 ≤ m.s.cdc.available
  idle : m.pc = .idle → m.s.cdc.rxHead = (m.s.cdc.rxTail + m.s.cdc.rxCount) % rxSize

/-- Where the indices stand to each other, from one load or store of `read` to the next. -/
def InStep : Prop :=
  match m.pc with
  | .tailStored _ => (m.s.cdc.rxHead + 1) % rxSize = (m.s.cdc.rxTail + m.s.cdc.rxCount) % rxSize
  | .countLoaded _ count =>
    0 < count ∧ count ≤ rxSize ∧ m.s.cdc.rxHead = (m.s.cdc.rxTail + (count - 1)) % rxSize
  | _ => m.s.cdc.rxHead = (m.s.cdc.rxTail + m.s.cdc.rxCount) % rxSize

structure Consistent : Prop extends USBCDC.RxBounds m.s.cdc where
  inStep : m.InStep

variable {m}

theorem Consistent.countOk (h : m.Consistent) : m.CountOk where
  toRxBounds := h.toRxBounds
  available := by rw [h.available_eq]; omega
  idle hidle := by simpa only [InStep, hidle] using h.inStep

theorem consistent_start (device : Bool) : (start device).Consistent :=
  ⟨USBCDC.rxOk_initial.toRxBounds, USBCDC.rxOk_initial.head_eq⟩

/-- Between the loads and stores that move the indices, the ring is as after `end()`. -/
theorem Consistent.advance (h : m.Consistent) (hc : m.clear .read = true) :
    m.advance.Consistent := by
  obtain ⟨s, pc, results⟩ := m
  obtain ⟨⟨hhead, htail, hcount⟩, hstep⟩ := h
  simp only [InStep] at hstep hhead htail hcount
  simp only [clear] at hc
  have hmod : ∀ k, k % rxSize < rxSize := fun k => Nat.mod_lt _ (by decide)
  cases pc with
  | idle =>
    simp only [Cpu.advance]
    split <;> exact ⟨⟨hhead, htail, hcount⟩, hstep⟩
  | tailLoaded value tail =>
    have htl : tail = s.cdc.rxTail := by simpa using hc
    refine ⟨⟨hhead, hmod _, hcount⟩, ?_⟩
    simp only [Cpu.advance, InStep, storeTail, htl]
    simp only at hstep
    rw [hstep, Nat.mod_add_mod, Nat.mod_add_mod]
    congr 1
    omega
  | tailStored value =>
    have hpos : s.cdc.rxCount ≠ 0 := by simpa using hc
    refine ⟨⟨hhead, htail, hcount⟩, Nat.pos_of_ne_zero hpos, hcount, ?_⟩
    show s.cdc.rxHead = (s.cdc.rxTail + (s.cdc.rxCount - 1)) % rxSize
    simp only at hstep
    unfold rxSize at *
    omega
  | countLoaded value count =>
    obtain ⟨hpos, hle, hhd⟩ := hstep
    have hsub : sub32 count 1 = count - 1 :=
      sub32_of_le hpos (by unfold rxSize at hle; omega)
    refine ⟨⟨hhead, htail, ?_⟩, ?_⟩
    · simp only [Cpu.advance, storeCount, hsub]
      omega
    · simp only [Cpu.advance, InStep, storeCount, hsub]
      exact hhd
  | countStored value =>
    simp only [Cpu.advance]
    split <;> exact ⟨⟨hhead, htail, hcount⟩, hstep⟩
  | pendingSeen value =>
    simp only [Cpu.advance]
    split <;> exact ⟨⟨hhead, htail, hcount⟩, hstep⟩
  | checked | indexLoaded _ | valueLoaded _ | roomSeen _ | pendingCleared _ =>
    exact ⟨⟨hhead, htail, hcount⟩, hstep⟩

theorem Consistent.of_ring (h : m.Consistent) {s : Device} (hhead : s.cdc.rxHead = m.s.cdc.rxHead)
    (htail : s.cdc.rxTail = m.s.cdc.rxTail) (hcount : s.cdc.rxCount = m.s.cdc.rxCount) :
    Consistent { m with s := s } := by
  obtain ⟨⟨h1, h2, h3⟩, hstep⟩ := h
  refine ⟨⟨by rwa [hhead], by rwa [htail], by rwa [hcount]⟩, ?_⟩
  simpa only [InStep, hhead, htail, hcount] using hstep

theorem consistent_emptied {s : Device} (hhead : s.cdc.rxHead = 0) (htail : s.cdc.rxTail = 0)
    (hcount : s.cdc.rxCount = 0) (hstored : ∀ value, m.pc ≠ .tailStored value)
    (hloaded : ∀ value count, m.pc = .countLoaded value count → count = 1) :
    Consistent { m with s := s } := by
  refine ⟨⟨by rw [hhead]; decide, by rw [htail]; decide, by rw [hcount]; decide⟩, ?_⟩
  cases hpc : m.pc with
  | tailStored value => exact absurd hpc (hstored value)
  | countLoaded value count =>
    have hone := hloaded value count hpc
    subst hone
    simp [InStep, hhead, htail, rxSize]
  | _ => simp [InStep, hhead, htail, hcount]

theorem Consistent.event (h : m.Consistent) {e : UsbdEvent} (hc : m.clear (.event e) = true) :
    (m.step (.event e)).Consistent := by
  by_cases he : e.ends = true
  · have hstored : ∀ value, m.pc ≠ .tailStored value := by
      intro value hpc
      simp [clear, hpc, he] at hc
    have hloaded : ∀ value count, m.pc = .countLoaded value count → count = 1 := by
      intro value count hpc
      simpa [clear, hpc, he] using hc
    cases e with
    | reset | suspend | disconnected => exact consistent_emptied rfl rfl rfl hstored hloaded
    | configured | connected | resume | other => cases he
  · cases e with
    | reset | suspend | disconnected => exact absurd rfl he
    | configured =>
      have hcdc := Device.configured_cdc (s := m.s)
      exact h.of_ring (by rw [hcdc]; rfl) (by rw [hcdc]; rfl) (by rw [hcdc]; rfl)
    | connected | resume | other => exact h.of_ring rfl rfl rfl

/-- Storing bytes moves head and count together, which `read` sees only between the load and
the store of `rx_count_`. -/
theorem Consistent.outDone (h : m.Consistent) {d : OutTransfer}
    (hc : m.clear (.outDone d) = true) : (m.step (.outDone d)).Consistent := by
  cases ha : m.s.cdcOut.armed with
  | false =>
    rw [step, Device.cdcOutDone_disarmed ha]
    exact h
  | true =>
    have hcdc : (m.s.cdcOutDone d).cdc = m.s.cdc.onOutData d.bytes := by
      rw [Device.cdcOutDone_eq h.toRxBounds ha]
      split <;> rfl
    have hloaded : ∀ value count, m.pc = .countLoaded value count →
        (m.s.cdc.stored d.bytes).length % rxSize = 0 := by
      intro value count hpc
      simpa [clear, hpc, ha] using hc
    obtain ⟨hbounds, hstep⟩ := h
    refine ⟨by simpa only [step, hcdc] using hbounds.onOutData d.bytes, ?_⟩
    have hhead := hbounds.head_lt
    simp only [step, InStep, hcdc, hbounds.onOutData_eq] at hstep ⊢
    cases hpc : m.pc with
    | tailStored value =>
      simp only [hpc] at hstep ⊢
      unfold rxSize at *
      omega
    | countLoaded value count =>
      simp only [hpc] at hstep ⊢
      rwa [Nat.add_mod, hloaded value count hpc, Nat.add_zero, Nat.mod_mod, Nat.mod_eq_of_lt hhead]
    | _ =>
      simp only [hpc] at hstep ⊢
      rw [hstep, Nat.mod_add_mod, Nat.add_assoc]

/-- **Receive count**: in a run whose steps lose no update, the ring's numbers stay in range in
every state and in step whenever `read` is not in progress. -/
theorem countOk_of_clear (device : Bool) (steps : List CpuStep)
    (h : Meets step (fun m a => m.clear a = true) (start device) steps) :
    Along step CountOk (start device) steps := by
  refine Along.mono (fun m hm => hm.countOk) (along_of_meets ?_ (consistent_start device) h)
  intro m a hm hc
  cases a with
  | read => exact hm.advance hc
  | event e => exact hm.event hc
  | outDone d => exact hm.outDone hc

/-- A byte received and read, and a reset between two calls. -/
def quietRun : List CpuStep :=
  [.event .reset, .event .configured, .outDone ⟨[0x41], by decide⟩] ++
    List.replicate 11 .read ++ [.event .reset, .read]

theorem countOk_quietRun : Along step CountOk (start true) quietRun :=
  countOk_of_clear true quietRun (by decide)

/-- A reset right after `read` has found a byte: `rx_count_` wraps below zero. -/
theorem reset_wraps_count : ¬ Along step CountOk (start true)
    ([.event .reset, .event .configured, .outDone ⟨[0x41], by decide⟩, .read, .event .reset] ++
      List.replicate 6 .read) :=
  fun h => absurd h.last.count_le (by decide)

end Cpu

end Bl616cl.Usb
