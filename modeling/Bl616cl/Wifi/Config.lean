import Mathlib.Logic.Function.Basic
import Bl616cl.Lib.Run

/-!
# The station's IP settings

`WiFiClass::config` gives the Wi-Fi manager a static address, records it and hands the DNS servers
to lwIP, whose thread sets them later. `begin` asks for DHCP unless the address is static.

`wifi_mgmr_sta_ip_set` is taken to program the address it is given if it succeeds, and nothing if it
does not.
-/

namespace Bl616cl.Wifi

open Bl616cl.Lib

/-- What `wifi_mgmr_sta_ip_set` is given, and what `g_ip`, `g_mask`, `g_gw` and `g_dns` record. -/
structure IpSettings where
  ip : BitVec 32
  mask : BitVec 32
  gw : BitVec 32
  dns : BitVec 32
  deriving DecidableEq, Repr

structure StaIp where
  mgmrStarted : Bool
  recorded : IpSettings
  staticIp : Bool
  /-- The Wi-Fi manager's. -/
  programmed : IpSettings
  /-- lwIP's DNS servers. -/
  servers : Nat → BitVec 32
  /-- The DNS servers that lwIP's thread still has to set, oldest first. -/
  queued : List (BitVec 32 × BitVec 32)

/-- The arguments of `config`. -/
structure ConfigArgs where
  localIP : BitVec 32
  gateway : BitVec 32
  subnet : BitVec 32
  dns1 : BitVec 32
  dns2 : BitVec 32
  deriving DecidableEq, Repr

def ConfigArgs.settings (a : ConfigArgs) : IpSettings := ⟨a.localIP, a.subnet, a.gateway, a.dns1⟩

/-- What the calls in `config` return; `ready` says that the manager comes up during
`ensure_wifi_started`. -/
structure ConfigIo where
  ready : Bool
  ipSet : Int
  malloc : Bool
  callback : Bool
  deriving DecidableEq, Repr

inductive IpLabel where
  | config (a : ConfigArgs) (io : ConfigIo)
  /-- `CODE_WIFI_ON_MGMR_DONE`. -/
  | mgmrDone
  /-- `CODE_WIFI_ON_GOT_IP`. -/
  | gotIp (settings : IpSettings)
  /-- lwIP's thread runs the oldest callback. -/
  | tcpip
  deriving DecidableEq, Repr

namespace StaIp

def start : StaIp := ⟨false, ⟨0, 0, 0, 0⟩, false, ⟨0, 0, 0, 0⟩, fun _ => 0, []⟩

variable (dnsMax : Nat) (s : StaIp)

/-! ## Steps -/

/-- `params.use_dhcp` in `begin`. -/
def useDhcp : Bool := !s.staticIp

/-- The callback that `config` gives to `tcpip_callback`; `dnsMax` is `DNS_MAX_SERVERS`. -/
def setServers (values : BitVec 32 × BitVec 32) (servers : Nat → BitVec 32) : Nat → BitVec 32 :=
  (List.range (min 2 dnsMax)).foldl
    (fun servers i => Function.update servers i (if i = 0 then values.1 else values.2)) servers

def config (a : ConfigArgs) (io : ConfigIo) : Bool × StaIp :=
  let s := { s with mgmrStarted := s.mgmrStarted || io.ready }
  if a.localIP = 0 then (s.mgmrStarted, { s with staticIp := false })
  else if !s.mgmrStarted then (false, s)
  else if io.ipSet < 0 then (false, s)
  else
    let s := { s with programmed := a.settings, recorded := a.settings, staticIp := true }
    if !io.malloc then (false, s)
    else if !io.callback then (false, s)
    else (true, { s with queued := s.queued ++ [(a.dns1, a.dns2)] })

def step : IpLabel → StaIp
  | .config a io => (s.config a io).2
  | .mgmrDone => { s with mgmrStarted := true }
  | .gotIp settings => { s with recorded := settings }
  | .tcpip =>
    match s.queued with
    | [] => s
    | values :: queued =>
      { s with servers := setServers dnsMax values s.servers, queued := queued }

/-- The servers when the callbacks have been run. -/
def settled : Nat → BitVec 32 :=
  s.queued.foldl (fun servers values => setServers dnsMax values servers) s.servers

/-! ## The property -/

/-- A call that fails changes none of the settings, and one that succeeds with an address makes all
of them its own, lwIP's DNS servers included. -/
structure AllOrNothing (a : ConfigArgs) (io : ConfigIo) : Prop where
  nothing : (s.config a io).1 = false →
    (s.config a io).2.recorded = s.recorded ∧ (s.config a io).2.useDhcp = s.useDhcp ∧
      (s.config a io).2.programmed = s.programmed
  all : (s.config a io).1 = true → a.localIP ≠ 0 →
    (s.config a io).2.recorded = a.settings ∧ (s.config a io).2.useDhcp = false ∧
      (s.config a io).2.programmed = a.settings ∧
      ∀ i < min 2 dnsMax, (s.config a io).2.settled dnsMax i = if i = 0 then a.dns1 else a.dns2

/-- An address: its DNS servers can be handed over, if the manager takes it, or the settings are
those already. No address: the manager is up, or there was none before. -/
def Granted (a : ConfigArgs) (io : ConfigIo) : Prop :=
  if a.localIP = 0 then (s.mgmrStarted || io.ready) = true ∨ s.staticIp = false
  else (s.mgmrStarted || io.ready) = true → 0 ≤ io.ipSet →
    (io.malloc = true ∧ io.callback = true) ∨
      (s.recorded = a.settings ∧ s.staticIp = true ∧ s.programmed = a.settings)

variable {dnsMax : Nat} {s : StaIp} {a : ConfigArgs} {io : ConfigIo}

/-! ## What a call does -/

theorem config_zero (h : a.localIP = 0) : s.config a io =
    (s.mgmrStarted || io.ready,
      { s with mgmrStarted := s.mgmrStarted || io.ready, staticIp := false }) := if_pos h

theorem config_refused (h : a.localIP ≠ 0)
    (hno : ¬ ((s.mgmrStarted || io.ready) = true ∧ 0 ≤ io.ipSet)) :
    s.config a io = (false, { s with mgmrStarted := s.mgmrStarted || io.ready }) := by
  simp only [config, if_neg h]
  rcases not_and_or.mp hno with hready | hset
  · rw [Bool.not_eq_true] at hready
    rw [hready]
    rfl
  · rw [if_pos (Int.not_le.mp hset), ite_self]

theorem config_taken (h : a.localIP ≠ 0) (hready : (s.mgmrStarted || io.ready) = true)
    (hset : 0 ≤ io.ipSet) : ∃ queued, s.config a io = (io.malloc && io.callback,
      ⟨true, a.settings, true, a.settings, s.servers, queued⟩) ∧
      ((io.malloc && io.callback) = true → queued = s.queued ++ [(a.dns1, a.dns2)]) := by
  simp only [config, if_neg h, hready, Bool.not_true, Bool.false_eq_true, if_false,
    if_neg (Int.not_lt.mpr hset)]
  cases hmalloc : io.malloc with
  | false => exact ⟨_, rfl, fun h => absurd h Bool.false_ne_true⟩
  | true =>
    cases hcallback : io.callback with
    | false => exact ⟨_, rfl, fun h => absurd h Bool.false_ne_true⟩
    | true => exact ⟨_, rfl, fun _ => rfl⟩

theorem setServers_eq {values : BitVec 32 × BitVec 32} {servers : Nat → BitVec 32} {i : Nat}
    (hi : i < min 2 dnsMax) :
    setServers dnsMax values servers i = if i = 0 then values.1 else values.2 := by
  have hcases : min 2 dnsMax = 1 ∨ min 2 dnsMax = 2 := by omega
  unfold setServers
  rcases hcases with h | h
  · obtain rfl : i = 0 := by omega
    simp [h]
  · rw [h] at hi ⊢
    have hi' : i = 0 ∨ i = 1 := by omega
    rcases hi' with rfl | rfl <;> simp [List.range_succ]

theorem settled_append {queued : List (BitVec 32 × BitVec 32)} {dns1 dns2 : BitVec 32}
    {i : Nat} (h : s.queued = queued ++ [(dns1, dns2)]) (hi : i < min 2 dnsMax) :
    s.settled dnsMax i = if i = 0 then dns1 else dns2 := by
  unfold settled
  rw [h, List.foldl_append]
  exact setServers_eq hi

theorem allOrNothing_of_zero (hzero : a.localIP = 0) : s.AllOrNothing dnsMax a io ↔
    (s.mgmrStarted || io.ready) = true ∨ s.staticIp = false := by
  constructor
  · intro h
    refine or_iff_not_imp_left.mpr fun hready => ?_
    have hsame := (h.nothing (by rw [config_zero hzero]; simpa using hready)).2.1
    rw [config_zero hzero] at hsame
    simpa [useDhcp] using hsame
  · intro h
    refine ⟨fun hfalse => ?_, fun _ hne => absurd hzero hne⟩
    rw [config_zero hzero] at hfalse ⊢
    have hstatic := h.resolve_left (by simpa using hfalse)
    exact ⟨rfl, by simp [useDhcp, hstatic], rfl⟩

theorem allOrNothing_of_refused (hne : a.localIP ≠ 0)
    (hno : ¬ ((s.mgmrStarted || io.ready) = true ∧ 0 ≤ io.ipSet)) :
    s.AllOrNothing dnsMax a io := by
  have hconfig := config_refused hne hno
  refine ⟨fun _ => ?_, fun htrue => ?_⟩
  · rw [hconfig]
    exact ⟨rfl, rfl, rfl⟩
  · rw [hconfig] at htrue
    cases htrue

theorem allOrNothing_of_taken (hne : a.localIP ≠ 0) (hready : (s.mgmrStarted || io.ready) = true)
    (hset : 0 ≤ io.ipSet) : s.AllOrNothing dnsMax a io ↔
      (io.malloc && io.callback) = true ∨
        (s.recorded = a.settings ∧ s.staticIp = true ∧ s.programmed = a.settings) := by
  obtain ⟨queued, hconfig, hqueued⟩ := config_taken hne hready hset
  cases hdone : io.malloc && io.callback with
  | true =>
    rw [hdone] at hconfig hqueued
    refine iff_of_true ⟨fun hfalse => ?_, fun _ _ => ?_⟩ (Or.inl rfl)
    · rw [hconfig] at hfalse
      cases hfalse
    · rw [hconfig]
      rw [hqueued rfl]
      exact ⟨rfl, rfl, rfl, fun i hi => settled_append (Eq.refl (s.queued ++ _)) hi⟩
  | false =>
    rw [hdone] at hconfig
    rw [or_iff_right Bool.false_ne_true]
    constructor
    · intro h
      obtain ⟨hrec, hdhcp, hprog⟩ := h.nothing (by rw [hconfig])
      rw [hconfig] at hrec hdhcp hprog
      exact ⟨hrec.symm, by simpa [useDhcp] using hdhcp.symm, hprog.symm⟩
    · rintro ⟨hrec, hstatic, hprog⟩
      refine ⟨fun _ => ?_, fun htrue => ?_⟩
      · rw [hconfig]
        exact ⟨hrec.symm, by simp [useDhcp, hstatic], hprog.symm⟩
      · rw [hconfig] at htrue
        cases htrue

/-- **Config**: a call is all or nothing if and only if an address the manager takes can have its
DNS servers handed over, and a call without one finds the manager up. -/
theorem allOrNothing_iff (dnsMax : Nat) (s : StaIp) (a : ConfigArgs) (io : ConfigIo) :
    s.AllOrNothing dnsMax a io ↔ s.Granted a io := by
  unfold Granted
  by_cases hzero : a.localIP = 0
  · rw [if_pos hzero]
    exact allOrNothing_of_zero hzero
  · rw [if_neg hzero]
    by_cases htaken : (s.mgmrStarted || io.ready) = true ∧ 0 ≤ io.ipSet
    · obtain ⟨hready, hset⟩ := htaken
      rw [allOrNothing_of_taken hzero hready hset, Bool.and_eq_true]
      simp only [hready, hset, forall_const]
    · exact iff_of_true (allOrNothing_of_refused hzero htaken) fun hready hset =>
        absurd ⟨hready, hset⟩ htaken

/-- `malloc` fails after the address has been programmed. -/
theorem not_allOrNothing_malloc : ¬ ∀ (dnsMax : Nat) (s : StaIp) (a : ConfigArgs) (io : ConfigIo),
    s.AllOrNothing dnsMax a io := by
  intro h
  have hnothing := (h 2 start ⟨1, 2, 3, 4, 5⟩ ⟨true, 0, false, true⟩).nothing (by decide)
  exact absurd hnothing.2.1 (by decide)

/-! ## Runs -/

/-- A static address is only ever set with the manager up, so a call without an address changes
nothing where it returns false. -/
theorem ready_of_static (labels : List IpLabel) :
    Along (step dnsMax) (fun s => s.staticIp = true → s.mgmrStarted = true) start labels := by
  refine along_of_meets (C := fun _ _ => True) (fun s l h _ => ?_) (by simp [start])
    (meets_of_forall (fun _ _ => trivial) _ _)
  cases l with
  | mgmrDone => exact fun _ => rfl
  | gotIp settings => exact h
  | tcpip =>
    simp only [step]
    split <;> exact h
  | config a io =>
    simp only [step]
    by_cases hzero : a.localIP = 0
    · rw [config_zero hzero]
      exact fun hstatic => absurd hstatic Bool.false_ne_true
    · by_cases htaken : (s.mgmrStarted || io.ready) = true ∧ 0 ≤ io.ipSet
      · obtain ⟨queued, hconfig, -⟩ := config_taken hzero htaken.1 htaken.2
        rw [hconfig]
        exact fun _ => rfl
      · rw [config_refused hzero htaken]
        intro hstatic
        simp [h hstatic]

end StaIp

end Bl616cl.Wifi
