import Bl616cl.Lib.Run

/-!
# The station's connection flags

`esp32_wifi.cpp` keeps `g_sta_connected` and `g_sta_got_ip`, which `wifi_event_handler` sets from
the driver's events and `disconnect` clears from the sketch's task. A step is one write of either
side; the driver posts what it likes, the event loop takes the events in the order they came.
-/

namespace Bl616cl.Wifi

open Bl616cl.Lib

/-- The events that change the station's flags. -/
inductive StaEvent where
  | mgmrDone | connected | gotIp | disconnect
  deriving DecidableEq, Repr

/-- What `wifi_mgmr_sta_state_get` reports. -/
inductive DriverState where
  | other | connecting | ipGetting | ipGot
  deriving DecidableEq, Repr

def DriverState.isConnected : DriverState → Bool
  | ipGetting | ipGot => true
  | other | connecting => false

inductive WlStatus where
  | noShield | idleStatus | connected | disconnected
  deriving DecidableEq, Repr

/-- `wifi_event_handler`, before its first write and before its second. -/
inductive Handler where
  | idle
  | first (ev : StaEvent)
  | second (ev : StaEvent)
  deriving DecidableEq, Repr

/-- The sketch's task, by the next thing its call does. -/
inductive Caller where
  | idle
  | starting (ssid : Option (List UInt8))
  | connecting
  | clearConnected
  | clearGotIp
  | dropping
  | returning (ok : Bool)
  deriving DecidableEq, Repr

structure Station where
  mgmrStarted : Bool
  staConnected : Bool
  staGotIp : Bool
  ip : BitVec 32
  ssid : List UInt8
  driver : DriverState
  handler : Handler
  caller : Caller
  /-- The events in flight, oldest first. -/
  queue : List StaEvent
  /-- `wifi_mgmr_sta_disconnect` has succeeded, and `wifi_mgmr_sta_connect` has not been called
  since. -/
  dropped : Bool
  /-- A `disconnect` has returned true, and `begin` has not been called since. -/
  quiet : Bool

inductive StaLabel where
  | begin (ssid : Option (List UInt8))
  | disconnect
  /-- The next thing the sketch's call does; `ok` and `d` are what `wifi_mgmr_sta_disconnect`
  returns and the state it leaves the driver in. -/
  | caller (ok : Bool) (d : DriverState)
  /-- The driver posts an event. -/
  | post (ev : StaEvent)
  /-- The event loop takes the oldest event. -/
  | deliver
  /-- The handler's next write; `ip` is what `wifi_mgmr_sta_ip_get` has for it. -/
  | handler (ip : BitVec 32)
  /-- The driver changes its state. -/
  | driver (d : DriverState)

namespace Station

def start : Station :=
  ⟨false, false, false, 0, [], .other, .idle, .idle, [], false, false⟩

variable (ssidLen : Nat) (s : Station)

/-! ## What the sketch reads -/

def status : WlStatus :=
  if !s.mgmrStarted then .noShield
  else if s.staGotIp || s.driver == .ipGot then .connected
  else if s.driver == .connecting || s.driver == .ipGetting then .idleStatus
  else .disconnected

/-- `SSID()`. -/
def getSsid : List UInt8 := if !s.staConnected then [] else s.ssid

/-- `localIP()`; `driverIp` is what `wifi_mgmr_sta_ip_get` has, if it succeeds. -/
def localIP (driverIp : Option (BitVec 32)) : BitVec 32 :=
  if s.staGotIp then s.ip else driverIp.getD 0

/-! ## Steps -/

/-- `begin` and `disconnect`. `ssidLen` is `MGMR_SSID_LEN`. -/
def callerStep (ok : Bool) (d : DriverState) : Station :=
  match s.caller with
  | .idle => s
  | .starting ssid =>
    match ssid with
    | none => { s with caller := .idle }
    | some ssid =>
      if !s.mgmrStarted || ssid.isEmpty then { s with caller := .idle }
      else { s with ssid := ssid.take ssidLen, caller := .connecting }
  | .connecting => { s with dropped := false, caller := .idle }
  | .clearConnected => { s with staConnected := false, caller := .clearGotIp }
  | .clearGotIp => { s with staGotIp := false, caller := .dropping }
  | .dropping =>
    if ok then { s with driver := d, dropped := true, caller := .returning true }
    else { s with caller := .returning false }
  | .returning ok => { s with quiet := s.quiet || ok, caller := .idle }

/-- `wifi_event_handler`. -/
def handlerStep (ip : BitVec 32) : Station :=
  match s.handler with
  | .idle => s
  | .first .mgmrDone => { s with mgmrStarted := true, handler := .idle }
  | .first .connected => { s with staConnected := true, handler := .second .connected }
  | .first .gotIp => { s with ip := ip, handler := .second .gotIp }
  | .first .disconnect => { s with staConnected := false, handler := .second .disconnect }
  | .second .mgmrDone => { s with handler := .idle }
  | .second .connected => { s with staGotIp := false, handler := .idle }
  | .second .gotIp => { s with staGotIp := true, handler := .idle }
  | .second .disconnect => { s with staGotIp := false, handler := .idle }

def step : StaLabel → Station
  | .begin ssid =>
    if s.caller = .idle then { s with quiet := false, caller := .starting ssid } else s
  | .disconnect =>
    if s.caller = .idle ∧ s.mgmrStarted then { s with caller := .clearConnected } else s
  | .caller ok d => s.callerStep ssidLen ok d
  | .post ev => { s with queue := s.queue ++ [ev] }
  | .deliver =>
    match s.handler, s.queue with
    | .idle, ev :: queue => { s with handler := .first ev, queue := queue }
    | _, _ => s
  | .handler ip => s.handlerStep ip
  | .driver d => { s with driver := d }

/-- The driver is not connected from a successful `wifi_mgmr_sta_disconnect` until the next
`wifi_mgmr_sta_connect`. -/
def Honest : StaLabel → Prop
  | .driver d => s.dropped = true → d.isConnected = false
  | .caller ok d => s.caller = .dropping → ok = true → d.isConnected = false
  | _ => True

/-! ## The property and its condition -/

/-- Neither the handler nor `disconnect` has written one of the two flags and is about to write the
other. -/
def Settled : Prop :=
  s.caller ≠ .clearGotIp ∧ s.handler ≠ .second .connected ∧ s.handler ≠ .second .disconnect

structure FlagsOk : Prop where
  quiet : s.quiet = true → s.status ≠ .connected
  agree : s.Settled → s.staGotIp = true → s.staConnected = true

/-- GOT_IP is not handled after a successful `disconnect`, nor on a station that is not connected,
unless `disconnect` is about to clear it; and none has come between when a `disconnect` succeeds. -/
def OnTime : StaLabel → Prop
  | .handler _ => s.handler = .second .gotIp →
    s.quiet = false ∧ (s.staConnected = true ∨ s.caller = .clearGotIp)
  | .caller _ _ => s.caller = .returning true → s.staGotIp = false
  | _ => True

/-- What holds inside the sketch's call. -/
def CallerOk : Prop :=
  match s.caller with
  | .idle => True
  | .starting _ | .connecting => s.quiet = false
  | .clearConnected | .clearGotIp | .dropping => s.mgmrStarted = true
  | .returning ok => s.mgmrStarted = true ∧ (ok = true → s.dropped = true)

/-- The invariant over runs. -/
structure Inv : Prop where
  quiet : s.quiet = true → s.staGotIp = false ∧ s.dropped = true ∧ s.mgmrStarted = true
  dropped : s.dropped = true → s.driver.isConnected = false
  caller : s.CallerOk
  agree : s.Settled → s.staGotIp = true → s.staConnected = true

variable {ssidLen : Nat} {s : Station} {a : StaLabel}

instance : Decidable s.Settled := inferInstanceAs (Decidable (_ ∧ _))

instance : DecidablePred FlagsOk := fun s =>
  decidable_of_iff ((s.quiet = true → s.status ≠ .connected) ∧
    (s.Settled → s.staGotIp = true → s.staConnected = true))
    ⟨fun h => ⟨h.1, h.2⟩, fun h => ⟨h.quiet, h.agree⟩⟩

instance : ∀ s a, Decidable (Honest s a)
  | _, .driver _ => inferInstanceAs (Decidable (_ → _))
  | _, .caller _ _ => inferInstanceAs (Decidable (_ → _))
  | _, .begin _ | _, .disconnect | _, .post _ | _, .deliver | _, .handler _ =>
    inferInstanceAs (Decidable True)

instance : ∀ s a, Decidable (OnTime s a)
  | _, .handler _ => inferInstanceAs (Decidable (_ → _))
  | _, .caller _ _ => inferInstanceAs (Decidable (_ → _))
  | _, .begin _ | _, .disconnect | _, .post _ | _, .deliver | _, .driver _ =>
    inferInstanceAs (Decidable True)

theorem inv_start : Inv start := by
  refine ⟨?_, ?_, trivial, ?_⟩ <;> simp [start]

theorem status_connected : s.status = .connected ↔
    s.mgmrStarted = true ∧ (s.staGotIp = true ∨ s.driver = .ipGot) := by
  unfold status
  cases s.mgmrStarted
  · simp
  · cases hg : s.staGotIp
    · cases hd : s.driver <;> simp
    · simp

theorem flagsOk_of_inv (h : Inv s) : FlagsOk s := by
  refine ⟨fun hq hstatus => ?_, h.agree⟩
  obtain ⟨hgot, hdropped, -⟩ := h.quiet hq
  rcases (status_connected.mp hstatus).2 with hgot' | hdriver
  · rw [hgot] at hgot'
    cases hgot'
  · have hconn := h.dropped hdropped
    rw [hdriver] at hconn
    cases hconn

/-! ## Steps of the sketch -/

theorem inv_begin (h : Inv s) (ssid : Option (List UInt8)) :
    Inv (s.step ssidLen (.begin ssid)) := by
  simp only [step]
  split
  · next hidle =>
    refine ⟨fun hq => Bool.noConfusion hq, h.dropped, rfl, fun hs => h.agree ⟨?_, hs.2⟩⟩
    simp [hidle]
  · exact h

theorem inv_disconnect (h : Inv s) : Inv (s.step ssidLen .disconnect) := by
  simp only [step]
  split
  · next hidle =>
    refine ⟨h.quiet, h.dropped, hidle.2, fun hs => h.agree ⟨?_, hs.2⟩⟩
    simp [hidle.1]
  · exact h

theorem inv_caller {ok : Bool} {d : DriverState} (h : Inv s) (hv : Honest s (.caller ok d))
    (hc : OnTime s (.caller ok d)) : Inv (s.step ssidLen (.caller ok d)) := by
  have hcaller := h.caller
  unfold CallerOk at hcaller
  simp only [step, callerStep]
  cases hp : s.caller with
  | idle => exact h
  | starting ssid =>
    have hagree := fun hs => h.agree ⟨by simp [hp], hs⟩
    rw [hp] at hcaller
    cases ssid with
    | none => exact ⟨h.quiet, h.dropped, trivial, fun hs => hagree hs.2⟩
    | some ssid =>
      dsimp only
      split
      · exact ⟨h.quiet, h.dropped, trivial, fun hs => hagree hs.2⟩
      · exact ⟨h.quiet, h.dropped, hcaller, fun hs => hagree hs.2⟩
  | connecting =>
    rw [hp] at hcaller
    refine ⟨fun hq => ?_, fun hd => Bool.noConfusion hd, trivial, fun hs => ?_⟩
    · rw [hcaller] at hq
      cases hq
    · exact h.agree ⟨by simp [hp], hs.2⟩
  | clearConnected =>
    rw [hp] at hcaller
    exact ⟨h.quiet, h.dropped, hcaller, fun hs => absurd rfl hs.1⟩
  | clearGotIp =>
    rw [hp] at hcaller
    refine ⟨fun hq => ⟨rfl, (h.quiet hq).2⟩, h.dropped, hcaller, fun _ hgot => ?_⟩
    cases hgot
  | dropping =>
    have hagree := fun hs => h.agree ⟨by simp [hp], hs⟩
    rw [hp] at hcaller
    cases ok with
    | false => exact ⟨h.quiet, h.dropped, ⟨hcaller, Bool.noConfusion⟩, fun hs => hagree hs.2⟩
    | true =>
      refine ⟨fun hq => ?_, fun _ => hv hp rfl, ⟨hcaller, fun _ => rfl⟩, fun hs => hagree hs.2⟩
      exact ⟨(h.quiet hq).1, rfl, hcaller⟩
  | returning ok =>
    have hagree := fun hs => h.agree ⟨by simp [hp], hs⟩
    rw [hp] at hcaller
    refine ⟨fun hq => ?_, h.dropped, trivial, fun hs => hagree hs.2⟩
    rcases Bool.or_eq_true_iff.mp hq with hq | rfl
    · exact h.quiet hq
    · exact ⟨hc hp, hcaller.2 rfl, hcaller.1⟩

/-! ## Steps of the event loop -/

theorem inv_deliver (h : Inv s) : Inv (s.step ssidLen .deliver) := by
  simp only [step]
  split
  · next ev queue hidle hqueue =>
    refine ⟨h.quiet, h.dropped, h.caller, fun hs => h.agree ⟨hs.1, ?_⟩⟩
    simp [hidle]
  · exact h

theorem callerOk_started (h : s.CallerOk) (handler : Handler) :
    CallerOk { s with mgmrStarted := true, handler := handler } := by
  unfold CallerOk at h ⊢
  cases hp : s.caller with
  | idle => trivial
  | starting ssid | connecting =>
    rw [hp] at h
    exact h
  | clearConnected | clearGotIp | dropping => rfl
  | returning ok =>
    rw [hp] at h
    exact ⟨rfl, h.2⟩

theorem inv_handler {ip : BitVec 32} (h : Inv s) (hc : OnTime s (.handler ip)) :
    Inv (s.step ssidLen (.handler ip)) := by
  simp only [step, handlerStep]
  split
  · exact h
  · next hp =>
    refine ⟨fun hq => ?_, h.dropped, callerOk_started h.caller _, fun hs => h.agree ⟨hs.1, ?_⟩⟩
    · exact ⟨(h.quiet hq).1, (h.quiet hq).2.1, rfl⟩
    · simp [hp]
  · next hp =>
    exact ⟨h.quiet, h.dropped, h.caller, fun hs => absurd rfl hs.2.1⟩
  · next hp =>
    refine ⟨h.quiet, h.dropped, h.caller, fun hs => h.agree ⟨hs.1, ?_⟩⟩
    simp [hp]
  · next hp =>
    exact ⟨h.quiet, h.dropped, h.caller, fun hs => absurd rfl hs.2.2⟩
  · next hp =>
    refine ⟨h.quiet, h.dropped, h.caller, fun hs => h.agree ⟨hs.1, ?_⟩⟩
    simp [hp]
  · next hp =>
    refine ⟨fun hq => ⟨rfl, (h.quiet hq).2⟩, h.dropped, h.caller, fun _ hgot => ?_⟩
    cases hgot
  · next hp =>
    obtain ⟨hquiet, hconn⟩ := hc hp
    refine ⟨fun hq => ?_, h.dropped, h.caller, fun hs _ => ?_⟩
    · rw [hquiet] at hq
      cases hq
    · exact hconn.resolve_right hs.1
  · next hp =>
    refine ⟨fun hq => ⟨rfl, (h.quiet hq).2⟩, h.dropped, h.caller, fun _ hgot => ?_⟩
    cases hgot

/-! ## Runs -/

/-- **Step**: what is handled on time keeps the invariant. -/
theorem inv_step (s : Station) (a : StaLabel) (h : Inv s) (hv : Honest s a) (hc : OnTime s a) :
    Inv (step ssidLen s a) := by
  cases a with
  | begin ssid => exact inv_begin h ssid
  | disconnect => exact inv_disconnect h
  | caller ok d => exact inv_caller h hv hc
  | post ev => exact ⟨h.quiet, h.dropped, h.caller, h.agree⟩
  | deliver => exact inv_deliver h
  | handler ip => exact inv_handler h hc
  | driver d => exact ⟨h.quiet, hv, h.caller, h.agree⟩

/-- What is not shows at once: as a connection after `disconnect`, or as an address without a
connection. -/
theorem flags_late (s : Station) (a : StaLabel) (h : Inv s) (_ : Honest s a) (hc : ¬ OnTime s a) :
    ¬ FlagsOk (step ssidLen s a) := by
  intro hok
  cases a with
  | begin ssid | disconnect | post ev | deliver | driver d => exact hc trivial
  | caller ok d =>
    simp only [OnTime, Classical.not_imp, Bool.not_eq_false] at hc
    obtain ⟨hp, hgot⟩ := hc
    have hcaller := h.caller
    simp only [CallerOk, hp] at hcaller
    simp only [step, callerStep, hp] at hok
    exact hok.quiet (Bool.or_true _) (status_connected.mpr ⟨hcaller.1, Or.inl hgot⟩)
  | handler ip =>
    simp only [OnTime, Classical.not_imp] at hc
    obtain ⟨hp, hlate⟩ := hc
    simp only [step, handlerStep, hp] at hok
    cases hq : s.quiet with
    | true => exact hok.quiet hq (status_connected.mpr ⟨(h.quiet hq).2.2, Or.inl rfl⟩)
    | false =>
      simp only [hq, true_and, not_or] at hlate
      exact hlate.1 (hok.agree ⟨hlate.2, by simp, by simp⟩ rfl)

/-- **Station**: no connection is reported from a successful `disconnect` to the next `begin`, and
the two flags agree, if and only if every GOT_IP is handled on time. -/
theorem flagsOk_iff (ssidLen : Nat) (labels : List StaLabel)
    (h : Meets (step ssidLen) Honest start labels) :
    Along (step ssidLen) FlagsOk start labels ↔ Meets (step ssidLen) OnTime start labels :=
  along_iff_meets inv_step (fun _ => flagsOk_of_inv) flags_late inv_start h

/-- Where the flags agree, `status`, `SSID` and `localIP` speak of one connection. -/
theorem agree_reads (h : FlagsOk s) (hs : s.Settled) (hm : s.mgmrStarted = true)
    (hgot : s.staGotIp = true) (driverIp : Option (BitVec 32)) :
    s.status = .connected ∧ s.getSsid = s.ssid ∧ s.localIP driverIp = s.ip := by
  refine ⟨status_connected.mpr ⟨hm, Or.inl hgot⟩, ?_, ?_⟩
  · simp [getSsid, h.agree hs hgot]
  · simp [localIP, hgot]

/-! ## A late GOT_IP -/

/-- A connection is made; CONNECTED has been handled, GOT_IP is in flight. -/
def connecting : List StaLabel :=
  [.post .mgmrDone, .deliver, .handler 0, .begin (some [0x61]), .caller true .other,
    .caller true .other, .post .connected, .post .gotIp, .deliver, .handler 0, .handler 0]

def disconnecting : List StaLabel :=
  [.disconnect, .caller true .other, .caller true .other, .caller true .other,
    .caller true .other]

def handling : List StaLabel := [.deliver, .handler 0x0100007F, .handler 0x0100007F]

/-- GOT_IP is handled before the sketch disconnects. -/
theorem flagsOk_early : Along (step 32) FlagsOk start (connecting ++ handling ++ disconnecting) :=
  (flagsOk_iff 32 _ (by decide)).mpr (by decide)

/-- GOT_IP is handled after it: the sketch reads WL_CONNECTED, with an address and no SSID. -/
theorem not_flagsOk_late : ¬ ∀ (ssidLen : Nat) (labels : List StaLabel),
    Meets (step ssidLen) Honest start labels → Along (step ssidLen) FlagsOk start labels := by
  intro h
  exact absurd (h 32 (connecting ++ disconnecting ++ handling) (by decide)) (by decide)

end Station

end Bl616cl.Wifi
