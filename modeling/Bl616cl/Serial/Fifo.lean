import Bl616cl.Lib.Run
import Bl616cl.Serial.HardwareSerial

/-!
# The receive ring under interrupts

The sketch's calls as their single statements, with runs of the interrupt handler between any two
of them. The handler writes `rx_head_`, the sketch `rx_tail_`, and neither looks at its own index
after a check without the other having left it alone; so the ring is a bounded queue
(`fifo_always`).
-/

namespace Bl616cl.Serial

open Bl616cl.Lib

/-! ## The machine -/

/-- Who has called `read()`: the sketch, or `read(buffer, size)` after `count` bytes. -/
inductive Caller where
  | sketch
  | block (size count : Nat)

/-- The next statement of the sketch's call. -/
inductive Pc where
  | idle
  | readCheck (caller : Caller)
  | readValue (caller : Caller)
  | readTail (caller : Caller) (value : UInt8)
  | readReturn (caller : Caller) (value : UInt8)
  | blockCheck (buffer : Bool) (size : Nat)
  | blockLoop (size count : Nat)
  | blockGot (size count : Nat) (value : Option UInt8)
  | peekCheck
  | peekReturn
  | availableCheck
  | countReturn

/-- What `read`, `peek`, `available` and `bufferedRxCount` return; `none` is `-1`. -/
inductive Observation where
  | byte (value : Option UInt8)
  | count (n : Nat)

/-- The observation is right about the unread bytes. -/
def Observation.Right : Observation → List UInt8 → Prop
  | .byte value, unread => value = unread.head?
  | .count n, unread => n = unread.length

/-- A byte the handler has taken from the FIFO, and how many accepted bytes were unread then. -/
structure Arrival where
  byte : UInt8
  unread : Nat
  dropped : Bool

/-- The serial port, the sketch's position, and what has happened since the ring was reset. -/
structure Machine where
  s : HardwareSerial
  pc : Pc
  arrivals : List Arrival
  /-- How many bytes have been taken off the ring. -/
  consumed : Nat
  /-- The bytes that `read()` has returned and `read(buffer, size)` has stored. -/
  returned : List UInt8
  /-- Observations, with the bytes that were unread when they were made. That of `read()` is made
  where it finds nothing to read or takes the byte off the ring. -/
  observed : List (Observation × List UInt8)

inductive Call where
  | read
  | readBuffer (buffer : Bool) (size : Nat)
  | peek
  | available
  | bufferedRxCount

inductive Label where
  /-- The handler runs, with these bytes in the FIFO. -/
  | uartInterrupt (values : List UInt8)
  | call (c : Call)
  /-- The next statement of the call. -/
  | statement

namespace Machine

def afterReset (s : HardwareSerial) : Machine := ⟨s.resetRxBuffer, .idle, [], 0, [], []⟩

variable (m : Machine)

/-- The bytes the handler has put into the ring, in the order of their arrival. -/
def accepted : List UInt8 := (m.arrivals.filter fun a => !a.dropped).map Arrival.byte

def unread : List UInt8 := m.accepted.drop m.consumed

def arrive (value : UInt8) : Machine :=
  { m with
    s := m.s.receive value
    arrivals := m.arrivals ++
      [⟨value, m.unread.length, (m.s.receive value).rxOverflowCount != m.s.rxOverflowCount⟩] }

def uartInterrupt (values : List UInt8) : Machine :=
  if !m.s.device then m else values.foldl arrive m

def note (o : Observation) : Machine := { m with observed := m.observed ++ [(o, m.unread)] }

def observe (o : Observation) : Machine := { m.note o with pc := .idle }

/-- `read()` returns; `none` is `-1`. -/
def readReturns (caller : Caller) (value : Option UInt8) : Machine :=
  match caller with
  | .sketch => { m with pc := .idle, returned := m.returned ++ value.toList }
  | .block size count => { m with pc := .blockGot size count value }

def enter : Call → Pc
  | .read => .readCheck .sketch
  | .readBuffer buffer size => .blockCheck buffer size
  | .peek => .peekCheck
  | .available => .availableCheck
  | .bufferedRxCount => .countReturn

/-- The statement at the sketch's position. -/
def statement : Machine :=
  match m.pc with
  | .idle => m
  | .readCheck caller =>
    if m.s.nothingToRead then (m.note (.byte none)).readReturns caller none
    else { m with pc := .readValue caller }
  | .readValue caller => { m with pc := .readTail caller (m.s.rxBuffer m.s.rxTail.toNat) }
  | .readTail caller value => { m.note (.byte (some value)) with
      s := { m.s with rxTail := advance m.s.rxTail }
      consumed := m.consumed + 1
      pc := .readReturn caller value }
  | .readReturn caller value => m.readReturns caller (some value)
  | .blockCheck buffer size =>
    if !m.s.device || !buffer || size == 0 then { m with pc := .idle }
    else { m with pc := .blockLoop size 0 }
  | .blockLoop size count =>
    if count < size then { m with pc := .readCheck (.block size count) } else { m with pc := .idle }
  | .blockGot _ _ none => { m with pc := .idle }
  | .blockGot size count (some value) =>
    { m with pc := .blockLoop size (count + 1), returned := m.returned ++ [value] }
  | .peekCheck => if m.s.nothingToRead then m.observe (.byte none) else { m with pc := .peekReturn }
  | .peekReturn => m.observe (.byte (some (m.s.rxBuffer m.s.rxTail.toNat)))
  | .availableCheck =>
    if !m.s.device then m.observe (.count 0) else { m with pc := .countReturn }
  | .countReturn => m.observe (.count m.s.bufferedRxCount.toNat)

def step : Label → Machine
  | .uartInterrupt values => m.uartInterrupt values
  | .call c =>
    match m.pc with
    | .idle => { m with pc := enter c }
    | _ => m
  | .statement => m.statement

/-! ## What should hold -/

/-- The byte `read()` has taken off the ring and not yet handed over. -/
def held : Pc → List UInt8
  | .readReturn _ value => [value]
  | .blockGot _ _ value => value.toList
  | _ => []

/-- The ring is a queue of at most 4095 bytes without losses. -/
structure Fifo (m : Machine) : Prop where
  order : m.returned <+: m.accepted
  handedOver : m.returned ++ held m.pc = m.accepted.take m.consumed
  dropped : ∀ a ∈ m.arrivals, a.dropped = true ↔ a.unread = rxBufferSize - 1
  count : m.s.bufferedRxCount.toNat + m.consumed = m.accepted.length
  counters : m.s.rxReceivedCount - m.s.rxOverflowCount = UInt32.ofNat m.accepted.length
  observed : ∀ o ∈ m.observed, o.1.Right o.2

/-- What the sketch has checked or loaded is still so. -/
def Checked (unread : List UInt8) : Pc → Prop
  | .readValue _ | .peekReturn => unread ≠ []
  | .readTail _ value => unread.head? = some value
  | _ => True

/-- The invariant over runs. -/
structure Inv (m : Machine) : Prop where
  inRange : m.s.InRange
  content : m.s.rxBytes = m.unread
  consumed_le : m.consumed ≤ m.accepted.length
  handedOver : m.returned ++ held m.pc = m.accepted.take m.consumed
  dropped : ∀ a ∈ m.arrivals, a.dropped = true ↔ a.unread = rxBufferSize - 1
  counters : m.s.rxReceivedCount - m.s.rxOverflowCount = UInt32.ofNat m.accepted.length
  observed : ∀ o ∈ m.observed, o.1.Right o.2
  checked : Checked m.unread m.pc
  closed : m.s.device = false → m.unread = []

variable {m : Machine}

theorem Inv.length_unread (h : m.Inv) : m.unread.length = m.s.used := by
  rw [← h.content, HardwareSerial.length_rxBytes]

theorem Inv.fifo (h : m.Inv) : m.Fifo where
  order := by
    have htake : m.returned <+: m.accepted.take m.consumed := ⟨_, h.handedOver⟩
    exact htake.trans (List.take_prefix _ _)
  handedOver := h.handedOver
  dropped := h.dropped
  count := by
    have hlen := h.length_unread
    have hle := h.consumed_le
    rw [unread, List.length_drop] at hlen
    rw [h.inRange.count_eq, ← hlen]
    omega
  counters := h.counters
  observed := h.observed

theorem inv_afterReset (s : HardwareSerial) : (afterReset s).Inv where
  inRange := HardwareSerial.inRange_reset
  content := HardwareSerial.rxBytes_reset
  consumed_le := Nat.le_refl 0
  handedOver := rfl
  dropped a ha := by cases ha
  counters := by
    show (0 : UInt32) - 0 = UInt32.ofNat 0
    decide
  observed o ho := by cases ho
  checked := trivial
  closed _ := rfl

/-! ## The handler -/

theorem counters_full (r o : UInt32) : r + 1 - (o + 1) = r - o := by grind

theorem counters_free {r o : UInt32} {n : Nat} (h : r - o = UInt32.ofNat n) :
    r + 1 - o = UInt32.ofNat (n + 1) := by
  rw [UInt32.ofNat_add, ← h]
  show r + 1 - o = r - o + 1
  grind

theorem checked_append {unread : List UInt8} {pc : Pc} (h : Checked unread pc) (value : UInt8) :
    Checked (unread ++ [value]) pc := by
  cases pc with
  | readValue caller => exact List.append_ne_nil_of_left_ne_nil h _
  | peekReturn => exact List.append_ne_nil_of_left_ne_nil h _
  | readTail caller v =>
    have hhead : unread.head? = some v := h
    show (unread ++ [value]).head? = some v
    rw [List.head?_append, hhead]
    rfl
  | _ => trivial

theorem device_receive (s : HardwareSerial) (value : UInt8) :
    (s.receive value).device = s.device := by
  unfold HardwareSerial.receive
  simp only
  split <;> rfl

theorem device_arrive (value : UInt8) : (m.arrive value).s.device = m.s.device :=
  device_receive m.s value

theorem Inv.arrive_full (h : m.Inv) (hnext : advance m.s.rxHead = m.s.rxTail)
    (value : UInt8) : (m.arrive value).Inv := by
  have hs := HardwareSerial.receive_full hnext value
  have harrive : m.arrive value = { m with
      s := m.s.receive value
      arrivals := m.arrivals ++ [⟨value, m.unread.length, true⟩] } := by
    simp [arrive, hs]
  have hacc : (m.arrive value).accepted = m.accepted := by simp [harrive, accepted]
  have hunread : (m.arrive value).unread = m.unread := by rw [unread, hacc]; rfl
  refine ⟨h.inRange.receive value, ?_, ?_, ?_, ?_, ?_, h.observed, ?_, ?_⟩
  · rw [hunread, ← h.content]
    show (m.s.receive value).rxBytes = m.s.rxBytes
    rw [hs]
    rfl
  · rw [hacc]
    exact h.consumed_le
  · rw [hacc]
    exact h.handedOver
  · intro a ha
    rw [harrive] at ha
    rcases List.mem_append.mp ha with hold | hnew
    · exact h.dropped a hold
    · obtain rfl := List.mem_singleton.mp hnew
      simp only [h.length_unread, h.inRange.full_iff.mp hnext]
  · rw [hacc, ← h.counters]
    show (m.s.receive value).rxReceivedCount - (m.s.receive value).rxOverflowCount = _
    rw [hs]
    exact counters_full _ _
  · rw [hunread]
    exact h.checked
  · rw [hunread, device_arrive]
    exact h.closed

theorem Inv.arrive_free (h : m.Inv) (hdev : m.s.device = true)
    (hnext : advance m.s.rxHead ≠ m.s.rxTail) (value : UInt8) : (m.arrive value).Inv := by
  have hs := HardwareSerial.receive_free hnext value
  have harrive : m.arrive value = { m with
      s := m.s.receive value
      arrivals := m.arrivals ++ [⟨value, m.unread.length, false⟩] } := by
    simp [arrive, hs]
  have hacc : (m.arrive value).accepted = m.accepted ++ [value] := by simp [harrive, accepted]
  have hunread : (m.arrive value).unread = m.unread ++ [value] := by
    rw [unread, hacc]
    exact List.drop_append_of_le_length h.consumed_le
  refine ⟨h.inRange.receive value, ?_, ?_, ?_, ?_, ?_, h.observed, ?_, ?_⟩
  · rw [hunread, ← h.content]
    exact h.inRange.rxBytes_receive hnext value
  · rw [hacc, List.length_append]
    exact Nat.le_add_right_of_le h.consumed_le
  · rw [hacc]
    exact h.handedOver.trans (List.take_append_of_le_length h.consumed_le).symm
  · intro a ha
    rw [harrive] at ha
    rcases List.mem_append.mp ha with hold | hnew
    · exact h.dropped a hold
    · obtain rfl := List.mem_singleton.mp hnew
      have hroom := mt h.inRange.full_iff.mpr hnext
      simpa only [h.length_unread, Bool.false_eq_true, false_iff] using hroom
  · rw [hacc, List.length_append]
    show (m.s.receive value).rxReceivedCount - (m.s.receive value).rxOverflowCount = _
    rw [hs]
    exact counters_free h.counters
  · rw [hunread]
    exact checked_append h.checked value
  · intro hd
    rw [(device_arrive value).trans hdev] at hd
    cases hd

theorem Inv.arrivals (h : m.Inv) (hdev : m.s.device = true) (values : List UInt8) :
    (values.foldl Machine.arrive m).Inv := by
  induction values generalizing m with
  | nil => exact h
  | cons value values ih =>
    have hdev' := (device_arrive value).trans hdev
    by_cases hnext : advance m.s.rxHead = m.s.rxTail
    · exact ih (h.arrive_full hnext value) hdev'
    · exact ih (h.arrive_free hdev hnext value) hdev'

theorem Inv.uartInterrupt (h : m.Inv) (values : List UInt8) : (m.uartInterrupt values).Inv := by
  unfold Machine.uartInterrupt
  split
  · exact h
  · next hdev => exact h.arrivals (by simpa using hdev) values

/-- The machine's handler is the source's. -/
theorem s_uartInterrupt (values : List UInt8) :
    (m.uartInterrupt values).s = m.s.drainHardwareRx values := by
  have hfold : ∀ m : Machine,
      (values.foldl arrive m).s = values.foldl HardwareSerial.receive m.s := by
    induction values with
    | nil => exact fun _ => rfl
    | cons value values ih => exact fun m => ih (m.arrive value)
  unfold Machine.uartInterrupt HardwareSerial.drainHardwareRx
  split
  · rfl
  · exact hfold m

/-! ## The sketch -/

/-- The ring is as it was; the sketch has gone on, handed bytes over or observed something. -/
theorem Inv.goOn (h : m.Inv) {pc : Pc} {returned : List UInt8}
    {observed : List (Observation × List UInt8)}
    (hret : returned ++ held pc = m.returned ++ held m.pc)
    (hobs : ∀ o ∈ observed, o.1.Right o.2) (hchecked : Checked m.unread pc) :
    Inv { m with pc := pc, returned := returned, observed := observed } :=
  ⟨h.inRange, h.content, h.consumed_le, hret.trans h.handedOver, h.dropped, h.counters, hobs,
    hchecked, h.closed⟩

theorem Inv.note (h : m.Inv) {o : Observation} (ho : o.Right m.unread) : (m.note o).Inv := by
  refine h.goOn rfl (fun o' ho' => ?_) h.checked
  rcases List.mem_append.mp ho' with hold | hnew
  · exact h.observed o' hold
  · obtain rfl := List.mem_singleton.mp hnew
    exact ho

theorem Inv.observe (h : m.Inv) (hheld : held m.pc = []) {o : Observation}
    (ho : o.Right m.unread) : (m.observe o).Inv :=
  (h.note ho).goOn (by show _ = m.returned ++ held m.pc; rw [hheld]; rfl) (h.note ho).observed
    trivial

theorem Inv.readReturns (h : m.Inv) {value : Option UInt8} (hheld : held m.pc = value.toList)
    (caller : Caller) : (m.readReturns caller value).Inv := by
  cases caller with
  | sketch => exact h.goOn (by rw [hheld]; exact List.append_nil _) h.observed trivial
  | block size count => exact h.goOn (by rw [hheld]; rfl) h.observed trivial

/-- What the check for an empty ring says about the unread bytes. -/
theorem Inv.unread_nil (h : m.Inv) : m.unread = [] ↔ m.s.rxHead = m.s.rxTail := by
  rw [← List.length_eq_zero_iff, h.length_unread, h.inRange.used_eq_zero]

theorem Inv.unread_cons (h : m.Inv) (hne : m.unread ≠ []) :
    m.unread = m.s.rxBuffer m.s.rxTail.toNat :: m.s.pop.rxBytes := by
  rw [← h.content]
  exact h.inRange.rxBytes_pop (mt h.unread_nil.mpr hne)

theorem Inv.nothingToRead (h : m.Inv) : m.s.nothingToRead = true ↔ m.unread = [] := by
  rw [HardwareSerial.nothingToRead, Bool.or_eq_true, Bool.not_eq_true', beq_iff_eq, ← h.unread_nil]
  exact ⟨fun hor => hor.elim h.closed id, Or.inr⟩

/-- The store of `rx_tail_` takes the byte that has been loaded off the ring. -/
theorem Inv.take (h : m.Inv) {caller : Caller} {value : UInt8}
    (hpc : m.pc = .readTail caller value) : m.statement.Inv := by
  have hchecked := h.checked
  have hheld := h.handedOver
  rw [hpc] at hchecked hheld
  have hhead : m.unread.head? = some value := hchecked
  have hne : m.unread ≠ [] := fun hnil => by
    rw [hnil] at hhead
    cases hhead
  have hcons := h.unread_cons hne
  have hvalue : value = m.s.rxBuffer m.s.rxTail.toNat := by
    rw [hcons] at hhead
    exact (Option.some.inj hhead).symm
  have hstep : m.statement = { m.note (.byte (some value)) with
      s := m.s.pop
      consumed := m.consumed + 1
      pc := .readReturn caller value } := by
    simp only [Machine.statement, hpc]
    rfl
  have hlt : m.consumed < m.accepted.length := by
    have hlen := congrArg List.length hcons
    rw [unread, List.length_drop, List.length_cons] at hlen
    omega
  have hunread : m.s.pop.rxBytes = m.accepted.drop (m.consumed + 1) := by
    have htail := congrArg List.tail hcons
    rw [unread, List.tail_drop] at htail
    exact htail.symm
  rw [hstep]
  have hright : (Observation.byte (some value)).Right m.unread := hhead.symm
  refine ⟨h.inRange.pop, hunread, hlt, ?_, h.dropped, h.counters, (h.note hright).observed,
    trivial, ?_⟩
  · have hreturned : m.returned ++ [] = m.accepted.take m.consumed := hheld
    rw [unread, List.head?_drop] at hhead
    show m.returned ++ [value] = m.accepted.take (m.consumed + 1)
    rw [List.take_add_one, ← hreturned, List.append_nil, hhead]
    rfl
  · intro hd
    exact absurd (h.closed hd) hne

theorem Inv.statement (h : m.Inv) : m.statement.Inv := by
  have hchecked := h.checked
  cases hpc : m.pc with
  | idle => simpa only [Machine.statement, hpc] using h
  | readCheck caller =>
    have hheld : held m.pc = [] := by rw [hpc]; rfl
    simp only [Machine.statement, hpc]
    split
    · next hnone =>
      have hright : (Observation.byte none).Right m.unread := by
        rw [h.nothingToRead.mp hnone]
        rfl
      exact (h.note hright).readReturns (by show held m.pc = _; rw [hheld]; rfl) caller
    · next hsome =>
      exact h.goOn (by rw [hheld]; rfl) h.observed (mt h.nothingToRead.mpr hsome)
  | readValue caller =>
    rw [hpc] at hchecked
    have hcons := h.unread_cons hchecked
    simp only [Machine.statement, hpc]
    refine h.goOn (by rw [hpc]; rfl) h.observed ?_
    show m.unread.head? = some (m.s.rxBuffer m.s.rxTail.toNat)
    rw [hcons]
    rfl
  | readTail caller value => exact h.take hpc
  | readReturn caller value =>
    simp only [Machine.statement, hpc]
    exact h.readReturns (by rw [hpc]; rfl) caller
  | blockCheck buffer size =>
    simp only [Machine.statement, hpc]
    split <;> exact h.goOn (by rw [hpc]; rfl) h.observed trivial
  | blockLoop size count =>
    simp only [Machine.statement, hpc]
    split <;> exact h.goOn (by rw [hpc]; rfl) h.observed trivial
  | blockGot size count value =>
    cases value with
    | none =>
      simp only [Machine.statement, hpc]
      exact h.goOn (by rw [hpc]; rfl) h.observed trivial
    | some value =>
      simp only [Machine.statement, hpc]
      exact h.goOn (by rw [hpc]; exact List.append_nil _) h.observed trivial
  | peekCheck =>
    have hheld : held m.pc = [] := by rw [hpc]; rfl
    simp only [Machine.statement, hpc]
    split
    · next hnone =>
      refine h.observe hheld ?_
      rw [h.nothingToRead.mp hnone]
      rfl
    · next hsome => exact h.goOn (by rw [hheld]; rfl) h.observed (mt h.nothingToRead.mpr hsome)
  | peekReturn =>
    rw [hpc] at hchecked
    simp only [Machine.statement, hpc]
    refine h.observe (by rw [hpc]; rfl) ?_
    rw [h.unread_cons hchecked]
    rfl
  | availableCheck =>
    have hheld : held m.pc = [] := by rw [hpc]; rfl
    simp only [Machine.statement, hpc]
    split
    · next hdev =>
      refine h.observe hheld ?_
      rw [h.closed (by simpa using hdev)]
      rfl
    · exact h.goOn (by rw [hheld]; rfl) h.observed trivial
  | countReturn =>
    simp only [Machine.statement, hpc]
    refine h.observe (by rw [hpc]; rfl) ?_
    show m.s.bufferedRxCount.toNat = m.unread.length
    rw [h.length_unread, h.inRange.count_eq]

theorem Inv.call (h : m.Inv) (c : Call) : (m.step (.call c)).Inv := by
  simp only [Machine.step]
  split
  · next hpc =>
    have hheld : held m.pc = [] := by rw [hpc]; rfl
    cases c <;> exact h.goOn (by rw [hheld]; rfl) h.observed trivial
  · exact h

theorem Inv.step (h : m.Inv) (l : Label) : (m.step l).Inv := by
  cases l with
  | uartInterrupt values => exact h.uartInterrupt values
  | call c => exact h.call c
  | statement => exact h.statement

/-- **Receive ring**: after a reset, whatever the interleaving of the sketch's statements with the
interrupt handler, the bytes read are the first accepted ones in order, a byte is dropped exactly
when 4095 are unread, and the counts agree. -/
theorem fifo_always (s : HardwareSerial) (ls : List Label) :
    Along step Fifo (afterReset s) ls := by
  have hmeets : Meets step (fun _ _ => True) (afterReset s) ls :=
    meets_of_forall (fun _ _ => trivial) _ ls
  have hrun : Along step Inv (afterReset s) ls :=
    along_of_meets (fun _ l h _ => h.step l) (inv_afterReset s) hmeets
  exact hrun.mono fun _ h => h.fifo

end Machine

end Bl616cl.Serial
