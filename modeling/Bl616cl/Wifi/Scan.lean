import Mathlib.Logic.Function.Basic
import Mathlib.Data.Fintype.Basic
import Bl616cl.Lib.Run

/-!
# Scans from several tasks

`scanNetworks` tests `g_scan_pending`, sets it and asks the driver for a scan; the event handler
dumps the results and clears it. A step is one statement of one task's call or of the handler.
Calls are numbered, and a number also names the request the call has made; the event of a request
may come after any time or never, and a scan that the driver makes on its own while joining a
network ends with an event too.
-/

namespace Bl616cl.Wifi

open Bl616cl.Lib

/-- The next statement of a `scanNetworks` call. -/
inductive Pc where
  | entering | testing | starting | resetting | marking | requesting | unmarking
  | waiting (i : Nat)
  | reading
  deriving DecidableEq, Repr

/-- The call still has to return its count. -/
def Pc.awaits : Pc → Bool
  | waiting _ | reading => true
  | entering | testing | starting | resetting | marking | requesting | unmarking => false

structure Call where
  number : Nat
  async : Bool
  pc : Pc
  deriving DecidableEq, Repr

structure Return where
  number : Nat
  async : Bool
  value : Int
  deriving DecidableEq, Repr

/-- What has become of the request of a call. -/
inductive Request where
  | unsent
  | accepted
  /-- Its event has reached the handler. -/
  | delivered
  /-- The dump for it has returned `n`. -/
  | dumped (n : BitVec 32)
  deriving DecidableEq, Repr

inductive ScanCode where
  | scanDone | scanDoneOnjoin
  deriving DecidableEq, Repr

/-- A completion event, and the request it completes; `none` is a scan of the driver's own. -/
structure ScanEvent where
  code : ScanCode
  request : Option Nat
  deriving DecidableEq, Repr

/-- The next statement of `wifi_event_handler`; `n` is what the dump has returned. -/
inductive HandlerPc where
  | testing | dumping
  | clamping (n : BitVec 32)
  | clearing (n : BitVec 32)
  deriving DecidableEq, Repr

structure Scan (T : Type) where
  mgmrStarted : Bool
  pending : Bool
  count : BitVec 32
  tasks : T → Option Call
  handler : Option (HandlerPc × ScanEvent)
  request : Nat → Request
  /-- The number of the next call. -/
  next : Nat
  /-- The call that set `pending` last. -/
  pendingBy : Option Nat
  returns : List Return

inductive ScanLabel (T : Type) where
  | mgmrDone
  /-- A task calls `scanNetworks`. -/
  | call (t : T) (async : Bool)
  /-- The next statement of its call; `accept` is the answer of `wifi_mgmr_sta_scan`. -/
  | task (t : T) (accept : Bool)
  | deliver (ev : ScanEvent)
  /-- The next statement of the handler; `n` is what `wifi_mgmr_sta_scanlist_dump` returns. -/
  | handler (n : BitVec 32)

namespace Scan

variable {T : Type}

def start : Scan T := ⟨false, false, 0, fun _ => none, none, fun _ => .unsent, 0, none, []⟩

/-- `capacity` is `SCAN_LIST_CAPACITY`. -/
def clamp (capacity n : BitVec 32) : BitVec 32 := if n > capacity then capacity else n

/-! ## Steps -/

section Step

variable [DecidableEq T] (capacity : BitVec 32) (s : Scan T)

def goto (t : T) (k : Call) (pc : Pc) : Scan T :=
  { s with tasks := Function.update s.tasks t (some { k with pc := pc }) }

def ret (t : T) (k : Call) (value : Int) : Scan T :=
  { s with
    tasks := Function.update s.tasks t none
    returns := ⟨k.number, k.async, value⟩ :: s.returns }

/-- `scanNetworks`. -/
def taskStep (t : T) (k : Call) (accept : Bool) : Scan T :=
  match k.pc with
  | .entering => if k.async && !s.mgmrStarted then s.ret t k (-2) else s.goto t k .testing
  | .testing => if s.pending then s.ret t k (-1) else s.goto t k .starting
  | .starting => if !s.mgmrStarted then s.ret t k (-2) else s.goto t k .resetting
  | .resetting => { s with count := 0 }.goto t k .marking
  | .marking => { s with pending := true, pendingBy := some k.number }.goto t k .requesting
  | .requesting =>
    if !accept then s.goto t k .unmarking
    else
      let sent := { s with request := Function.update s.request k.number .accepted }
      if k.async then sent.ret t k (-1) else sent.goto t k (.waiting 0)
  | .unmarking => { s with pending := false }.ret t k (-2)
  | .waiting i =>
    if i < 1500 && s.pending then s.goto t k (.waiting (i + 1)) else s.goto t k .reading
  | .reading => s.ret t k s.count.toInt

/-- `wifi_event_handler`, for both completion events. -/
def handlerStep (n : BitVec 32) : Scan T :=
  match s.handler with
  | none => s
  | some (.testing, ev) =>
    if !s.pending then { s with handler := none }
    else { s with handler := some (.dumping, ev) }
  | some (.dumping, ev) => { s with count := n, handler := some (.clamping n, ev) }
  | some (.clamping n, ev) =>
    { s with count := clamp capacity s.count, handler := some (.clearing n, ev) }
  | some (.clearing n, ev) =>
    { s with
      pending := false
      handler := none
      request := match ev.request with
        | none => s.request
        | some c => Function.update s.request c (.dumped n) }

def step : ScanLabel T → Scan T
  | .mgmrDone => { s with mgmrStarted := true }
  | .call t async =>
    match s.tasks t with
    | none =>
      { s with
        tasks := Function.update s.tasks t (some ⟨s.next, async, .entering⟩)
        next := s.next + 1 }
    | some _ => s
  | .task t accept =>
    match s.tasks t with
    | none => s
    | some k => s.taskStep t k accept
  | .deliver ev =>
    match s.handler with
    | none =>
      { s with
        handler := some (.testing, ev)
        request := match ev.request with
          | none => s.request
          | some c => Function.update s.request c .delivered }
    | some _ => s
  | .handler n => s.handlerStep capacity n

end Step

variable (capacity : BitVec 32) (s : Scan T)

/-- The driver reports a request only once it has accepted it, and only once. -/
def Reported : ScanLabel T → Prop
  | .deliver ev => ∀ c ∈ ev.request, s.request c = .accepted
  | _ => True

/-! ## The property and its condition -/

/-- The scan of this call is marked pending. -/
def Marked (c : Nat) : Prop := s.pending = true ∧ s.pendingBy = some c

/-- Scans are matched to their results. The dump returns no more than there is room for; if it
did, that would be counted. -/
structure Matched : Prop where
  single : ∀ c c', s.request c = .accepted → s.request c' = .accepted → c = c'
  counted : ∀ r ∈ s.returns, 0 ≤ r.value → ∃ n, s.request r.number = .dumped n ∧
    (n ≤ capacity → r.value = n.toInt) ∧ (capacity < n → r.value = capacity.toInt)
  released : ∀ r ∈ s.returns, r.async = false → ¬ s.Marked r.number

def awaits (t : T) : Bool := (s.tasks t).any fun k => k.pc.awaits

/-- When a call resets the count or marks its scan pending, none is pending and none awaited, and
nobody gives up waiting. -/
def CallOrderly (k : Call) : Prop :=
  match k.pc with
  | .resetting | .marking => s.pending = false ∧ ∀ t, s.awaits t = false
  | .waiting i => 1500 ≤ i → s.pending = false
  | .entering | .testing | .starting | .requesting | .unmarking | .reading => True

/-- And what the handler takes for the end of the pending scan is that. -/
def Orderly : ScanLabel T → Prop
  | .task t _ => ∀ k ∈ s.tasks t, s.CallOrderly k
  | .handler _ => ∀ p ∈ s.handler, p.1 = .testing → s.pending = true →
    p.2.request.isSome ∧ p.2.request = s.pendingBy
  | _ => True

/-- The results of the request have been dumped, and give this count. -/
def Gives (q : Request) (count : BitVec 32) : Prop :=
  ∃ n, q = .dumped n ∧ count = clamp capacity n

/-- What holds inside a call. -/
def CallOk (k : Call) : Prop :=
  match k.pc with
  | .entering | .testing | .starting | .resetting | .marking =>
    s.request k.number = .unsent ∧ s.pendingBy ≠ some k.number
  | .requesting | .unmarking => s.request k.number = .unsent ∧ s.Marked k.number
  | .waiting _ => s.Marked k.number ∨
    s.pending = false ∧ Gives capacity (s.request k.number) s.count
  | .reading => s.pending = false ∧ Gives capacity (s.request k.number) s.count

/-- What holds while an event of this request is handled. -/
def Handling (ev : ScanEvent) : Prop :=
  ∃ c, ev.request = some c ∧ s.request c = .delivered ∧ s.Marked c

def HandlerOk : Prop :=
  match s.handler with
  | none => True
  | some (.testing, ev) => ev.request = none ∨ s.Handling ev
  | some (.dumping, ev) => s.Handling ev
  | some (.clamping n, ev) => s.Handling ev ∧ s.count = n
  | some (.clearing n, ev) => s.Handling ev ∧ s.count = clamp capacity n

/-- What holds of a call that has returned. -/
structure ReturnOk (r : Return) : Prop where
  old : r.number < s.next
  gone : ∀ t k, s.tasks t = some k → k.number ≠ r.number
  counted : 0 ≤ r.value → ∃ m, Gives capacity (s.request r.number) m ∧ r.value = m.toInt
  released : r.async = false → ¬ s.Marked r.number

/-- What holds apart from the calls that are under way. -/
structure SharedOk : Prop where
  old : ∀ t k, s.tasks t = some k → k.number < s.next
  apart : ∀ t t' k k', s.tasks t = some k → s.tasks t' = some k' → k.number = k'.number → t = t'
  fresh : ∀ c, s.next ≤ c → s.request c = .unsent ∧ s.pendingBy ≠ some c
  accepted : ∀ c, s.request c = .accepted → s.Marked c
  handler : s.HandlerOk capacity
  returned : ∀ r ∈ s.returns, s.ReturnOk capacity r

/-- The invariant over runs. -/
structure Inv : Prop extends s.SharedOk capacity where
  call : ∀ t k, s.tasks t = some k → s.CallOk capacity k

variable {capacity : BitVec 32} {s : Scan T} {t : T} {k : Call}

theorem inv_start : Inv capacity (start : Scan T) := by
  refine ⟨⟨?_, ?_, ?_, ?_, trivial, ?_⟩, ?_⟩ <;> simp [start]

theorem marked_unique {c c' : Nat} (h : s.Marked c) (h' : s.Marked c') : c = c' := by
  have hby := h.2
  rw [h'.2] at hby
  exact (Option.some.inj hby).symm

theorem matched_of_inv (h : Inv capacity s) : Matched capacity s := by
  refine ⟨fun c c' hc hc' => ?_, fun r hr hv => ?_, fun r hr => (h.returned r hr).released⟩
  · exact marked_unique (h.accepted c hc) (h.accepted c' hc')
  · obtain ⟨m, ⟨n, hn, rfl⟩, hval⟩ := (h.returned r hr).counted hv
    refine ⟨n, hn, fun hle => ?_, fun hlt => ?_⟩
    · rw [hval, clamp, if_neg (BitVec.not_lt.mpr hle)]
    · rw [hval, clamp, if_pos hlt]

/-! ## What a write leaves alone -/

theorem awaits_pc (ht : s.tasks t = some k) : s.awaits t = k.pc.awaits := by
  rw [awaits, ht]
  rfl

theorem number_ne (h : s.SharedOk capacity) (ht : s.tasks t = some k) {t' : T} {k' : Call}
    (hk' : s.tasks t' = some k') (htt : t' ≠ t) : k'.number ≠ k.number :=
  fun he => htt (h.apart t' t k' k hk' ht he)

theorem CallOk.congr {s' : Scan T} (hk : s.CallOk capacity k)
    (hreq : s'.request k.number = s.request k.number) (hpend : s'.pending = s.pending)
    (hby : s'.pendingBy = s.pendingBy) (hcount : s'.count = s.count) : s'.CallOk capacity k := by
  unfold CallOk Marked at hk ⊢
  rwa [hreq, hpend, hby, hcount]

theorem callOk_count {n : BitVec 32} {hd : Option (HandlerPc × ScanEvent)}
    (hk : s.CallOk capacity k) (h : k.pc.awaits = false ∨ s.pending = true) :
    CallOk capacity { s with count := n, handler := hd } k := by
  unfold CallOk Marked at hk ⊢
  cases hp : k.pc with
  | entering | testing | starting | resetting | marking | requesting | unmarking =>
    rw [hp] at hk
    exact hk
  | waiting i =>
    rw [hp] at hk h
    have hpend := h.resolve_left (by simp [Pc.awaits])
    refine Or.inl (hk.resolve_right fun hdone => ?_)
    rw [hdone.1] at hpend
    cases hpend
  | reading =>
    rw [hp] at hk h
    have hpend := h.resolve_left (by simp [Pc.awaits])
    rw [hk.1] at hpend
    cases hpend

/-- The end of the marked scan, for a call that has another one or none. -/
theorem CallOk.unmark {s' : Scan T} {c : Nat} (hk : s.CallOk capacity k) (hmark : s.Marked c)
    (hne : k.number ≠ c) (hreq : s'.request k.number = s.request k.number)
    (hpend : s'.pending = false) (hby : s'.pendingBy = s.pendingBy)
    (hcount : s'.count = s.count) : s'.CallOk capacity k := by
  have hother : ¬ s.Marked k.number := fun hm => hne (marked_unique hm hmark)
  unfold CallOk at hk ⊢
  cases hp : k.pc with
  | entering | testing | starting | resetting | marking =>
    rw [hp] at hk
    simp only [hreq, hby]
    exact hk
  | requesting | unmarking =>
    rw [hp] at hk
    exact absurd hk.2 hother
  | waiting i =>
    rw [hp] at hk
    simp only [hreq, hcount]
    exact Or.inr ⟨hpend, (hk.resolve_left hother).2⟩
  | reading =>
    rw [hp] at hk
    simp only [hreq, hcount]
    exact ⟨hpend, hk.2⟩

/-- A call whose request is on its way waits for it. -/
theorem CallOk.waits (hk : s.CallOk capacity k) (hsent : s.request k.number ≠ .unsent)
    (hdump : ∀ n, s.request k.number ≠ .dumped n) : ∃ i, k.pc = .waiting i := by
  unfold CallOk at hk
  cases hp : k.pc with
  | waiting i => exact ⟨i, rfl⟩
  | entering | testing | starting | resetting | marking | requesting | unmarking =>
    rw [hp] at hk
    exact absurd hk.1 hsent
  | reading =>
    rw [hp] at hk
    obtain ⟨-, n, hn, -⟩ := hk
    exact absurd hn (hdump n)

theorem returned_frame (h : s.SharedOk capacity) {b : Bool} {m : BitVec 32}
    {hd : Option (HandlerPc × ScanEvent)} : ∀ r ∈ s.returns,
    ReturnOk capacity { s with mgmrStarted := b, count := m, handler := hd } r := fun r hr =>
  ⟨(h.returned r hr).old, (h.returned r hr).gone, (h.returned r hr).counted,
    (h.returned r hr).released⟩

/-- The handler has no event that it takes for the end of a request. -/
def HandlerFree (s : Scan T) : Prop :=
  ∀ p ∈ s.handler, p.1 = .testing ∧ p.2.request = none

theorem handlerOk_of_free (h : s.HandlerFree) : s.HandlerOk capacity := by
  unfold HandlerOk
  cases hp : s.handler with
  | none => trivial
  | some p =>
    obtain ⟨pc, ev⟩ := p
    obtain ⟨rfl, hev⟩ := h _ hp
    exact Or.inl hev

theorem handlerFree (h : s.HandlerOk capacity)
    (hno : ∀ c, s.request c = .delivered → ¬ s.Marked c) : s.HandlerFree := by
  have hnot : ∀ ev, ¬ s.Handling ev := by
    rintro ev ⟨c, -, hdel, hmark⟩
    exact hno c hdel hmark
  rintro ⟨pc, ev⟩ hp
  unfold HandlerOk at h
  rw [Option.mem_def.mp hp] at h
  cases pc with
  | testing => exact ⟨rfl, h.resolve_right (hnot ev)⟩
  | dumping => exact absurd h (hnot ev)
  | clamping n | clearing n => exact absurd h.1 (hnot ev)

theorem handlerFree_of_unsent (h : s.HandlerOk capacity) {c : Nat} (hun : s.request c = .unsent)
    (hmark : s.Marked c) : s.HandlerFree := by
  refine handlerFree h fun c' hdel hmark' => ?_
  obtain rfl := marked_unique hmark hmark'
  rw [hun] at hdel
  cases hdel

theorem lt_next (h : s.SharedOk capacity) {c : Nat} (hc : s.request c ≠ .unsent) : c < s.next := by
  by_contra hge
  exact hc (h.fresh c (Nat.not_lt.mp hge)).1

theorem fresh_update (h : s.SharedOk capacity) {c : Nat} (hc : c < s.next) (q : Request) (c' : Nat)
    (hc' : s.next ≤ c') :
    Function.update s.request c q c' = .unsent ∧ s.pendingBy ≠ some c' := by
  rw [Function.update_of_ne (by omega)]
  exact h.fresh c' hc'

theorem counted_update {r : Return} (h : s.ReturnOk capacity r) {c : Nat}
    (hc : ∀ n, s.request c ≠ .dumped n) (q : Request) (hv : 0 ≤ r.value) :
    ∃ m, Gives capacity (Function.update s.request c q r.number) m ∧ r.value = m.toInt := by
  obtain ⟨m, ⟨n, hn, hm⟩, hval⟩ := h.counted hv
  refine ⟨m, ⟨n, ?_, hm⟩, hval⟩
  rw [Function.update_of_ne, hn]
  rintro rfl
  exact hc n hn

theorem shared_accepted (h : Inv capacity s) (ht : s.tasks t = some k)
    (hun : s.request k.number = .unsent) (hmark : s.Marked k.number) :
    SharedOk capacity { s with request := Function.update s.request k.number .accepted } := by
  have hfree := handlerFree_of_unsent h.handler hun hmark
  refine ⟨h.old, h.apart, fresh_update h.toSharedOk (h.old t k ht) _, ?_,
    handlerOk_of_free hfree, ?_⟩
  · intro c hc
    by_cases hck : c = k.number
    · exact hck ▸ hmark
    · exact h.accepted c ((Function.update_of_ne hck _ _).symm.trans hc)
  · intro r hr
    have hret := h.returned r hr
    refine ⟨hret.old, hret.gone, counted_update hret (fun n hn => ?_) _, hret.released⟩
    rw [hun] at hn
    cases hn

/-! ## The handler -/

theorem inv_clearing {n : BitVec 32} {ev : ScanEvent} (h : Inv capacity s)
    (hh : s.handler = some (.clearing n, ev)) (n' : BitVec 32) :
    Inv capacity (s.handlerStep capacity n') := by
  have hok := h.handler
  simp only [HandlerOk, hh] at hok
  obtain ⟨⟨c, hev, hdel, hmark⟩, hcount⟩ := hok
  have hlt := lt_next h.toSharedOk (c := c) (by simp [hdel])
  simp only [handlerStep, hh, hev]
  refine ⟨⟨h.old, h.apart, fresh_update h.toSharedOk hlt _, ?_, trivial, ?_⟩, ?_⟩
  · intro c' hc'
    by_cases hcc : c' = c
    · subst hcc
      simp at hc'
    · have hacc : s.request c' = .accepted := (Function.update_of_ne hcc _ _).symm.trans hc'
      exact absurd (marked_unique (h.accepted c' hacc) hmark) hcc
  · intro r hr
    have hret := h.returned r hr
    refine ⟨hret.old, hret.gone, counted_update hret (fun m hm => ?_) _,
      fun _ hm => Bool.noConfusion hm.1⟩
    rw [hdel] at hm
    cases hm
  · intro t' k' hk'
    have hcall := h.call t' k' hk'
    by_cases hck : k'.number = c
    · subst hck
      obtain ⟨i, hpc⟩ := hcall.waits (by simp [hdel]) (by simp [hdel])
      unfold CallOk
      rw [hpc]
      exact Or.inr ⟨rfl, n, Function.update_self .., hcount⟩
    · exact hcall.unmark hmark hck (Function.update_of_ne hck _ _) rfl rfl rfl

/-- The handler writes the count while a scan is marked. -/
theorem inv_count {m : BitVec 32} {hd : Option (HandlerPc × ScanEvent)} (h : Inv capacity s)
    (hpend : s.pending = true) (hok : HandlerOk capacity { s with count := m, handler := hd }) :
    Inv capacity { s with count := m, handler := hd } := by
  refine ⟨⟨h.old, h.apart, h.fresh, h.accepted, hok, returned_frame h.toSharedOk⟩, ?_⟩
  exact fun t' k' hk' => callOk_count (h.call t' k' hk') (Or.inr hpend)

theorem inv_handler {n : BitVec 32} (h : Inv capacity s) (hc : s.Orderly (.handler n)) :
    Inv capacity (s.handlerStep capacity n) := by
  have hok := h.handler
  unfold HandlerOk at hok
  cases hh : s.handler with
  | none => simpa only [handlerStep, hh] using h
  | some p =>
    obtain ⟨pc, ev⟩ := p
    rw [hh] at hok
    cases pc with
    | testing =>
      simp only [handlerStep, hh]
      split
      · exact ⟨⟨h.old, h.apart, h.fresh, h.accepted, trivial, returned_frame h.toSharedOk⟩, h.call⟩
      · next hpend =>
        rw [Bool.not_eq_true', Bool.not_eq_false] at hpend
        refine inv_count h hpend (hok.resolve_left fun hnone => ?_)
        have hsome := (hc _ hh rfl hpend).1
        rw [hnone] at hsome
        cases hsome
    | dumping =>
      obtain ⟨c, hev, hdel, hmark⟩ := hok
      simp only [handlerStep, hh]
      exact inv_count h hmark.1 ⟨⟨c, hev, hdel, hmark⟩, rfl⟩
    | clamping m =>
      obtain ⟨⟨c, hev, hdel, hmark⟩, hcount⟩ := hok
      simp only [handlerStep, hh]
      exact inv_count h hmark.1 ⟨⟨c, hev, hdel, hmark⟩, congrArg (clamp capacity) hcount⟩
    | clearing m => exact inv_clearing h hh n

variable [DecidableEq T]

/-! ## Moving on and returning -/

theorem inv_goto {pc : Pc} (h : s.SharedOk capacity)
    (hothers : ∀ t' k', t' ≠ t → s.tasks t' = some k' → s.CallOk capacity k')
    (ht : s.tasks t = some k) (hk : s.CallOk capacity { k with pc := pc }) :
    Inv capacity (s.goto t k pc) := by
  have hnum : ∀ t' k', (s.goto t k pc).tasks t' = some k' →
      ∃ k'', s.tasks t' = some k'' ∧ k''.number = k'.number := by
    intro t' k' hk'
    by_cases htt : t' = t
    · subst htt
      refine ⟨k, ht, ?_⟩
      simp only [goto, Function.update_self, Option.some.injEq] at hk'
      rw [← hk']
    · simp only [goto, Function.update_of_ne htt] at hk'
      exact ⟨k', hk', rfl⟩
  refine ⟨⟨?_, ?_, h.fresh, h.accepted, h.handler, ?_⟩, ?_⟩
  · intro t' k' hk'
    obtain ⟨k'', hk'', hn⟩ := hnum t' k' hk'
    exact hn ▸ h.old t' k'' hk''
  · intro t1 t2 k1 k2 h1 h2 he
    obtain ⟨k1', h1', hn1⟩ := hnum t1 k1 h1
    obtain ⟨k2', h2', hn2⟩ := hnum t2 k2 h2
    exact h.apart t1 t2 k1' k2' h1' h2' (by omega)
  · intro r hr
    have hret := h.returned r hr
    refine ⟨hret.old, fun t' k' hk' => ?_, hret.counted, hret.released⟩
    obtain ⟨k'', hk'', hn⟩ := hnum t' k' hk'
    exact hn ▸ hret.gone t' k'' hk''
  · intro t' k' hk'
    by_cases htt : t' = t
    · subst htt
      simp only [goto, Function.update_self, Option.some.injEq] at hk'
      subst hk'
      exact hk
    · simp only [goto, Function.update_of_ne htt] at hk'
      exact hothers t' k' htt hk'

theorem inv_ret {value : Int} (h : s.SharedOk capacity)
    (hothers : ∀ t' k', t' ≠ t → s.tasks t' = some k' → s.CallOk capacity k')
    (ht : s.tasks t = some k)
    (hcount : 0 ≤ value → ∃ m, Gives capacity (s.request k.number) m ∧ value = m.toInt)
    (hmark : k.async = false → ¬ s.Marked k.number) : Inv capacity (s.ret t k value) := by
  have htasks : ∀ t' k', (s.ret t k value).tasks t' = some k' → t' ≠ t ∧ s.tasks t' = some k' := by
    intro t' k' hk'
    by_cases htt : t' = t
    · simp [ret, htt] at hk'
    · simp only [ret, Function.update_of_ne htt] at hk'
      exact ⟨htt, hk'⟩
  refine ⟨⟨?_, ?_, h.fresh, h.accepted, h.handler, ?_⟩, ?_⟩
  · exact fun t' k' hk' => h.old t' k' (htasks t' k' hk').2
  · exact fun t1 t2 k1 k2 h1 h2 => h.apart t1 t2 k1 k2 (htasks t1 k1 h1).2 (htasks t2 k2 h2).2
  · intro r hr
    rcases List.mem_cons.mp hr with rfl | hr
    · refine ⟨h.old t k ht, fun t' k' hk' he => ?_, hcount, hmark⟩
      obtain ⟨htt, hk''⟩ := htasks t' k' hk'
      exact htt (h.apart t' t k' k hk'' ht he)
    · have hret := h.returned r hr
      exact ⟨hret.old, fun t' k' hk' => hret.gone t' k' (htasks t' k' hk').2, hret.counted,
        hret.released⟩
  · intro t' k' hk'
    obtain ⟨htt, hk''⟩ := htasks t' k' hk'
    exact hothers t' k' htt hk''

/-! ## Statements of a call -/

/-- The statements that write no shared variable. -/
theorem inv_stay {pc : Pc} (h : Inv capacity s) (ht : s.tasks t = some k)
    (hk : s.CallOk capacity { k with pc := pc }) : Inv capacity (s.goto t k pc) :=
  inv_goto h.toSharedOk (fun t' k' _ => h.call t' k') ht hk

theorem inv_refused {value : Int} (h : Inv capacity s) (ht : s.tasks t = some k) (hv : value < 0)
    (hmark : s.pendingBy ≠ some k.number) : Inv capacity (s.ret t k value) := by
  refine inv_ret h.toSharedOk (fun t' k' _ => h.call t' k') ht ?_ fun _ hm => hmark hm.2
  intro hpos
  omega

theorem inv_resetting (h : Inv capacity s) (ht : s.tasks t = some k) (hp : k.pc = .resetting)
    (hpend : s.pending = false) (hawait : ∀ t', s.awaits t' = false) :
    Inv capacity ({ s with count := 0 }.goto t k .marking) := by
  have hk := h.call t k ht
  simp only [CallOk, hp] at hk
  have hfree : s.HandlerFree := by
    refine handlerFree h.handler fun c _ hmark => ?_
    rw [hmark.1] at hpend
    cases hpend
  refine inv_goto ⟨h.old, h.apart, h.fresh, h.accepted, handlerOk_of_free hfree,
    returned_frame h.toSharedOk⟩ ?_ ht hk
  intro t' k' _ hk'
  exact callOk_count (h.call t' k' hk') (Or.inl (awaits_pc hk' ▸ hawait t'))

theorem inv_marking (h : Inv capacity s) (ht : s.tasks t = some k) (hp : k.pc = .marking)
    (hpend : s.pending = false) (hawait : ∀ t', s.awaits t' = false) :
    Inv capacity ({ s with pending := true, pendingBy := some k.number }.goto t k .requesting) := by
  have hk := h.call t k ht
  simp only [CallOk, hp] at hk
  have hnone : ∀ c, ¬ s.Marked c := by
    intro c hmark
    rw [hmark.1] at hpend
    cases hpend
  have hfree : s.HandlerFree := handlerFree h.handler fun c _ => hnone c
  refine inv_goto ⟨h.old, h.apart, ?_, ?_, handlerOk_of_free hfree, ?_⟩ ?_ ht ⟨hk.1, rfl, rfl⟩
  · intro c (hc : s.next ≤ c)
    refine ⟨(h.fresh c hc).1, fun he => ?_⟩
    have hold := h.old t k ht
    have hnum := Option.some.inj he
    omega
  · exact fun c hc => absurd (h.accepted c hc) (hnone c)
  · intro r hr
    have hret := h.returned r hr
    exact ⟨hret.old, hret.gone, hret.counted, fun _ hm => hret.gone t k ht (Option.some.inj hm.2)⟩
  · intro t' k' htt hk'
    have hne := number_ne h.toSharedOk ht hk' htt
    have hcall := h.call t' k' hk'
    have haw := awaits_pc hk' ▸ hawait t'
    unfold CallOk at hcall ⊢
    cases hpc : k'.pc with
    | entering | testing | starting | resetting | marking =>
      rw [hpc] at hcall
      exact ⟨hcall.1, fun he => hne (Option.some.inj he).symm⟩
    | requesting | unmarking =>
      rw [hpc] at hcall
      exact absurd hcall.2 (hnone _)
    | waiting i | reading =>
      rw [hpc] at haw
      cases haw

theorem inv_requesting {accept : Bool} (h : Inv capacity s) (ht : s.tasks t = some k)
    (hp : k.pc = .requesting) : Inv capacity (s.taskStep t k accept) := by
  have hk := h.call t k ht
  simp only [CallOk, hp] at hk
  obtain ⟨hun, hmark⟩ := hk
  simp only [taskStep, hp]
  cases accept with
  | false => exact inv_stay h ht ⟨hun, hmark⟩
  | true =>
    have hothers : ∀ t' k', t' ≠ t → s.tasks t' = some k' →
        CallOk capacity { s with request := Function.update s.request k.number .accepted } k' := by
      intro t' k' htt hk'
      have hne := number_ne h.toSharedOk ht hk' htt
      exact (h.call t' k' hk').congr (Function.update_of_ne hne _ _) rfl rfl rfl
    have hshared := shared_accepted h ht hun hmark
    cases hasync : k.async with
    | true =>
      refine inv_ret hshared hothers ht (fun hv => absurd hv (by decide)) fun ha => ?_
      rw [hasync] at ha
      cases ha
    | false => exact inv_goto hshared hothers ht (Or.inl hmark)

theorem inv_unmarking (h : Inv capacity s) (ht : s.tasks t = some k) (hp : k.pc = .unmarking) :
    Inv capacity ({ s with pending := false }.ret t k (-2)) := by
  have hk := h.call t k ht
  simp only [CallOk, hp] at hk
  obtain ⟨hun, hmark⟩ := hk
  have hfree := handlerFree_of_unsent h.handler hun hmark
  refine inv_ret ⟨h.old, h.apart, h.fresh, ?_, handlerOk_of_free hfree, ?_⟩ ?_ ht
    (fun hv => absurd hv (by decide)) fun _ hm => Bool.noConfusion hm.1
  · intro c hc
    obtain rfl := marked_unique hmark (h.accepted c hc)
    rw [hun] at hc
    cases hc
  · intro r hr
    have hret := h.returned r hr
    exact ⟨hret.old, hret.gone, hret.counted, fun _ hm => Bool.noConfusion hm.1⟩
  · intro t' k' htt hk'
    have hne := number_ne h.toSharedOk ht hk' htt
    exact (h.call t' k' hk').unmark hmark hne rfl rfl rfl rfl

theorem inv_waiting {accept : Bool} {i : Nat} (h : Inv capacity s) (ht : s.tasks t = some k)
    (hp : k.pc = .waiting i) (hc : 1500 ≤ i → s.pending = false) :
    Inv capacity (s.taskStep t k accept) := by
  have hk := h.call t k ht
  simp only [CallOk, hp] at hk
  simp only [taskStep, hp]
  split
  · exact inv_stay h ht hk
  · next hstop =>
    refine inv_stay h ht ?_
    have hpend : s.pending = false := by
      by_contra hpend
      rw [Bool.not_eq_false] at hpend
      have hlong : 1500 ≤ i := by
        by_contra hlt
        exact hstop (by simp [hpend]; omega)
      rw [hc hlong] at hpend
      cases hpend
    refine hk.resolve_left fun hmark => ?_
    rw [hmark.1] at hpend
    cases hpend

theorem inv_reading (h : Inv capacity s) (ht : s.tasks t = some k) (hp : k.pc = .reading) :
    Inv capacity (s.ret t k s.count.toInt) := by
  have hk := h.call t k ht
  simp only [CallOk, hp] at hk
  refine inv_ret h.toSharedOk (fun t' k' _ => h.call t' k') ht (fun _ => ⟨_, hk.2, rfl⟩) ?_
  intro _ hmark
  rw [hmark.1] at hk
  exact Bool.noConfusion hk.1

theorem inv_task {accept : Bool} (h : Inv capacity s) (hc : s.Orderly (.task t accept)) :
    Inv capacity (s.step capacity (.task t accept)) := by
  simp only [step]
  cases ht : s.tasks t with
  | none => exact h
  | some k =>
    have hk := h.call t k ht
    have hc := hc k ht
    unfold CallOrderly at hc
    dsimp only
    cases hp : k.pc with
    | entering | testing | starting =>
      simp only [CallOk, hp] at hk
      simp only [taskStep, hp]
      split
      · exact inv_refused h ht (by decide) hk.2
      · exact inv_stay h ht hk
    | resetting =>
      rw [hp] at hc
      simp only [taskStep, hp]
      exact inv_resetting h ht hp hc.1 hc.2
    | marking =>
      rw [hp] at hc
      simp only [taskStep, hp]
      exact inv_marking h ht hp hc.1 hc.2
    | requesting => exact inv_requesting h ht hp
    | unmarking =>
      simp only [taskStep, hp]
      exact inv_unmarking h ht hp
    | waiting i =>
      rw [hp] at hc
      exact inv_waiting h ht hp hc
    | reading =>
      simp only [taskStep, hp]
      exact inv_reading h ht hp

theorem inv_call (h : Inv capacity s) (t : T) (async : Bool) :
    Inv capacity (s.step capacity (.call t async)) := by
  simp only [step]
  cases ht : s.tasks t with
  | some k => exact h
  | none =>
    have htasks : ∀ t' k',
        Function.update s.tasks t (some ⟨s.next, async, .entering⟩) t' = some k' →
        (t' = t ∧ k' = ⟨s.next, async, .entering⟩) ∨ (t' ≠ t ∧ s.tasks t' = some k') := by
      intro t' k' hk'
      by_cases htt : t' = t
      · subst htt
        rw [Function.update_self] at hk'
        exact Or.inl ⟨rfl, (Option.some.inj hk').symm⟩
      · rw [Function.update_of_ne htt] at hk'
        exact Or.inr ⟨htt, hk'⟩
    refine ⟨⟨?_, ?_, ?_, h.accepted, h.handler, ?_⟩, ?_⟩
    · intro t' k' hk'
      show k'.number < s.next + 1
      rcases htasks t' k' hk' with ⟨-, rfl⟩ | ⟨-, hold⟩
      · exact Nat.lt_succ_self _
      · have hlt := h.old t' k' hold
        omega
    · intro t1 t2 k1 k2 h1 h2 he
      rcases htasks t1 k1 h1 with ⟨rfl, rfl⟩ | ⟨-, hold1⟩
      · rcases htasks t2 k2 h2 with ⟨rfl, -⟩ | ⟨-, hold2⟩
        · rfl
        · have hlt := h.old t2 k2 hold2
          simp only at he
          omega
      · have hlt := h.old t1 k1 hold1
        rcases htasks t2 k2 h2 with ⟨-, rfl⟩ | ⟨-, hold2⟩
        · simp only at he
          omega
        · exact h.apart t1 t2 k1 k2 hold1 hold2 he
    · intro c (hc : s.next + 1 ≤ c)
      exact h.fresh c (by omega)
    · intro r hr
      have hret := h.returned r hr
      have hlt := hret.old
      refine ⟨Nat.lt_succ_of_lt hlt, fun t' k' hk' => ?_, hret.counted, hret.released⟩
      rcases htasks t' k' hk' with ⟨-, rfl⟩ | ⟨-, hold⟩
      · simp only
        omega
      · exact hret.gone t' k' hold
    · intro t' k' hk'
      rcases htasks t' k' hk' with ⟨-, rfl⟩ | ⟨-, hold⟩
      · exact h.fresh s.next (Nat.le_refl _)
      · exact h.call t' k' hold

theorem inv_deliver {ev : ScanEvent} (h : Inv capacity s) (hv : s.Reported (.deliver ev)) :
    Inv capacity (s.step capacity (.deliver ev)) := by
  simp only [step]
  cases hh : s.handler with
  | some p => exact h
  | none =>
    dsimp only
    cases hev : ev.request with
    | none =>
      exact ⟨⟨h.old, h.apart, h.fresh, h.accepted, Or.inl hev, returned_frame h.toSharedOk⟩, h.call⟩
    | some c =>
      have hacc : s.request c = .accepted := hv c hev
      have hmark := h.accepted c hacc
      have hlt := lt_next h.toSharedOk (c := c) (by simp [hacc])
      refine ⟨⟨h.old, h.apart, fresh_update h.toSharedOk hlt _, ?_, ?_, ?_⟩, ?_⟩
      · intro c' hc'
        by_cases hcc : c' = c
        · exact hcc ▸ hmark
        · exact h.accepted c' ((Function.update_of_ne hcc _ _).symm.trans hc')
      · exact Or.inr ⟨c, hev, Function.update_self .., hmark⟩
      · intro r hr
        have hret := h.returned r hr
        refine ⟨hret.old, hret.gone, counted_update hret (fun n hn => ?_) _, hret.released⟩
        rw [hacc] at hn
        cases hn
      · intro t' k' hk'
        have hcall := h.call t' k' hk'
        by_cases hck : k'.number = c
        · -- The call whose event this is.
          subst hck
          obtain ⟨i, hpc⟩ := hcall.waits (by simp [hacc]) (by simp [hacc])
          unfold CallOk
          rw [hpc]
          exact Or.inl hmark
        · exact hcall.congr (Function.update_of_ne hck _ _) rfl rfl rfl

/-! ## Runs -/

/-- **Step**: an orderly step keeps the invariant. -/
theorem inv_step (s : Scan T) (a : ScanLabel T) (h : Inv capacity s)
    (hc : s.Reported a ∧ s.Orderly a) : Inv capacity (s.step capacity a) := by
  cases a with
  | mgmrDone =>
    exact ⟨⟨h.old, h.apart, h.fresh, h.accepted, h.handler, returned_frame h.toSharedOk⟩, h.call⟩
  | call t async => exact inv_call h t async
  | task t accept => exact inv_task h hc.2
  | deliver ev => exact inv_deliver h hc.1
  | handler n => exact inv_handler h hc.2

/-- **Scans**: in every run of any number of tasks whose steps are orderly, at most one request is
outstanding, a count that is returned is that of the call's own scan, and a synchronous call that
has returned has left no scan marked. -/
theorem matched_of_orderly (capacity : BitVec 32) (labels : List (ScanLabel T))
    (h : Meets (step capacity) (fun s a => s.Reported a ∧ s.Orderly a) (start : Scan T) labels) :
    Along (step capacity) (Matched capacity) (start : Scan T) labels :=
  (along_of_meets inv_step inv_start h).mono fun _ => matched_of_inv

/-- A synchronous call that stops waiting leaves its scan marked. -/
theorem not_matched_of_timeout {i : Nat} (ht : s.tasks t = some k) (hp : k.pc = .waiting i)
    (hi : 1500 ≤ i) (hasync : k.async = false) (hmark : s.Marked k.number) :
    ¬ Matched capacity ((s.step capacity (.task t false)).step capacity (.task t false)) := by
  intro h
  have hstop : s.step capacity (.task t false) = s.goto t k .reading := by
    simp [step, ht, taskStep, hp, Nat.not_lt.mpr hi]
  have hret : (s.goto t k .reading).step capacity (.task t false) =
      (s.goto t k .reading).ret t { k with pc := .reading } s.count.toInt := by
    simp [step, goto, taskStep]
  rw [hstop, hret] at h
  exact h.released ⟨k.number, k.async, s.count.toInt⟩ (List.mem_cons_self ..) hasync hmark

/-! ## Two tasks -/

instance (s : Scan T) : ∀ a, Decidable (s.Reported a)
  | .deliver ev => inferInstanceAs (Decidable (∀ c ∈ ev.request, s.request c = .accepted))
  | .mgmrDone | .call _ _ | .task _ _ | .handler _ => inferInstanceAs (Decidable True)

instance [Fintype T] (s : Scan T) : ∀ k, Decidable (s.CallOrderly k)
  | ⟨_, _, .resetting⟩ | ⟨_, _, .marking⟩ => inferInstanceAs (Decidable (_ ∧ _))
  | ⟨_, _, .waiting _⟩ => inferInstanceAs (Decidable (_ → _))
  | ⟨_, _, .entering⟩ | ⟨_, _, .testing⟩ | ⟨_, _, .starting⟩ | ⟨_, _, .requesting⟩
  | ⟨_, _, .unmarking⟩ | ⟨_, _, .reading⟩ => inferInstanceAs (Decidable True)

instance [Fintype T] (s : Scan T) : ∀ a, Decidable (s.Orderly a)
  | .task t _ => inferInstanceAs (Decidable (∀ k ∈ s.tasks t, s.CallOrderly k))
  | .handler _ => inferInstanceAs (Decidable (∀ p ∈ s.handler, p.1 = .testing → s.pending = true →
      p.2.request.isSome ∧ p.2.request = s.pendingBy))
  | .mgmrDone | .call _ _ | .deliver _ => inferInstanceAs (Decidable True)

def calling (t async : Bool) : List (ScanLabel Bool) :=
  [.call t async, .task t true, .task t true, .task t true]

def asking (t : Bool) : List (ScanLabel Bool) := [.task t true, .task t true, .task t true]

def completing (c : Nat) : List (ScanLabel Bool) :=
  [.deliver ⟨.scanDone, some c⟩, .handler 3, .handler 3, .handler 3, .handler 3]

/-- One call after the other: the first waits for its three networks, the second does not wait. -/
theorem matched_inTurn : Along (step 20) (Matched 20) (start : Scan Bool)
    (.mgmrDone :: calling false false ++ asking false ++ completing 0 ++
      [.task false true, .task false true] ++ calling true true ++ asking true) :=
  matched_of_orderly 20 _ (by decide)

/-- Both calls test the flag before either sets it: the driver has two requests. -/
theorem not_matched_race : ¬ ∀ (capacity : BitVec 32) (labels : List (ScanLabel Bool)),
    Meets (step capacity) Reported start labels →
      Along (step capacity) (Matched capacity) (start : Scan Bool) labels := by
  intro h
  have hlast := (h 20 (.mgmrDone :: calling false false ++ calling true false ++ asking false ++
    asking true) (by decide)).last
  exact absurd (hlast.single 0 1 (by decide) (by decide)) (by decide)

end Scan

end Bl616cl.Wifi
