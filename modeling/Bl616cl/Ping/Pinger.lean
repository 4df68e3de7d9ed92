import Mathlib.Algebra.Group.Nat.Defs
import Mathlib.Data.List.Count
import Bl616cl.Ping.Echo
import Bl616cl.Ping.Session

/-!
# A ping session and its socket

`esp_ping_task` with its socket: the requests it sends, the packets the raw socket delivers, and the
callbacks. The statements of the task, and the calls of the owner and of the callbacks between them,
are the steps of `Session`.

A report is made whether or not its callback is set; if it is, it is called.
-/

namespace Bl616cl.Ping

open Bl616cl.Lib

/-- One round of the echo loop: its request, and the packets that the socket holds or gets before
the timeout, oldest first. -/
structure Round where
  seqno : Nat
  /-- `sent == sizeof(request)`. -/
  sent : Bool
  packets : List Packet
  /-- What the memory of `reply` and after it held. -/
  stack : List UInt8
  deriving DecidableEq, Repr

/-- There is one `lwip_recvfrom`. -/
def Round.success (target : UInt32) (r : Round) : Bool :=
  r.sent && r.packets.head?.any fun p => ((p.received r.stack).echoed target r.seqno).1

structure Report where
  cb : Callback
  round : Option Round
  deriving DecidableEq, Repr

/-- `on_ping_success` or `on_ping_timeout` for a request. -/
def Callback.isResult : Callback → Bool
  | success | timeout => true
  | noSocket | finish => false

/-- The locals of `esp_ping_task` and its socket. -/
structure Wire where
  target : UInt32
  seqno : Nat
  queue : List Packet
  /-- Whether the socket could be opened. -/
  opened : Option Bool
  round : Option Round
  reports : List Report
  deriving DecidableEq, Repr

def Wire.tell (w : Wire) (cb : Callback) : Wire :=
  { w with reports := w.reports ++ [⟨cb, w.round⟩] }

structure Pinger where
  session : Session
  wire : Wire

/-- What the calls of the next statement return: whether there is a socket, what `lwip_sendto` says,
which packets come before the timeout. -/
structure Io where
  socket : Bool
  sent : Int
  arrivals : List Packet
  stack : List UInt8
  deriving DecidableEq, Repr

inductive PingerLabel where
  | call (p : Party) (c : PingCall)
  | owner
  | task (io : Io)
  /-- A packet that comes when the task does not wait for one. -/
  | arrive (p : Packet)
  deriving DecidableEq, Repr

namespace Pinger

def start (target : UInt32) (count intervalMs : Nat) (hasCallback : Callback → Bool) : Pinger :=
  ⟨.newSession count intervalMs hasCallback, ⟨target, 0, [], none, none, []⟩⟩

variable (g : Pinger)

/-! ## Steps -/

/-- `sizeof(request)`. -/
def requestSize : Int := 40

def nextRound (io : Io) : Round :=
  ⟨(g.wire.seqno + 1) % 2 ^ 16, decide (io.sent = requestSize), g.wire.queue ++ io.arrivals,
    io.stack⟩

/-- Which way the next statement goes. -/
def outcome (io : Io) : TaskPc → Bool
  | .opening => io.socket
  | .sending _ => (g.nextRound io).success g.wire.target
  | _ => true

def wireStep (io : Io) : TaskPc → Wire
  | .opening => { g.wire with opened := some io.socket, queue := [] }
  | .sending _ =>
    let r := g.nextRound io
    { g.wire with
      seqno := r.seqno
      queue := if r.sent then r.packets.tail else r.packets
      round := some r }
  | .report cb _ => if g.session.hasCallback cb then g.wire else g.wire.tell cb
  | .args cb _ => g.wire.tell cb
  | _ => g.wire

def step : PingerLabel → Pinger
  | .call p c => ⟨g.session.step (.call p c), g.wire⟩
  | .owner => ⟨g.session.step .owner, g.wire⟩
  | .task io =>
    match g.session.task with
    | none => g
    | some pc => ⟨g.session.step (.task (g.outcome io pc)), g.wireStep io pc⟩
  | .arrive p => ⟨g.session, { g.wire with queue := g.wire.queue ++ [p] }⟩

/-- The session is started once. -/
def Once : PingerLabel → Prop
  | .call _ c => c = .start true → g.session.started = false
  | _ => True

/-- A condition on the rounds. -/
def Sends (G : UInt32 → Round → Prop) : PingerLabel → Prop
  | .task io =>
    match g.session.task with
    | some (.sending _) => G g.wire.target (g.nextRound io)
    | _ => True
  | _ => True

instance : ∀ a, Decidable (g.Once a)
  | .call _ _ => inferInstanceAs (Decidable (_ → _))
  | .owner | .task _ | .arrive _ => inferInstanceAs (Decidable True)

instance (G : UInt32 → Round → Prop) [∀ t r, Decidable (G t r)] : ∀ a, Decidable (g.Sends G a)
  | .task io =>
    match h : g.session.task with
    | some (.sending _) =>
      decidable_of_iff (G g.wire.target (g.nextRound io)) (by simp only [Sends, h])
    | none => isTrue (by simp only [Sends, h])
    | some (.config _) | some .opening | some (.testStop _) | some (.testDeleted _)
    | some (.delaying _) | some (.retestStop _) | some (.retestDeleted _) | some (.timing _)
    | some (.report _ _) | some (.args _ _) | some (.inside _ _ _) | some .lastTest
    | some .freeing | some .exiting => isTrue (by simp only [Sends, h])
  | .call _ _ | .owner | .arrive _ => inferInstanceAs (Decidable True)

end Pinger

/-! ## The property -/

/-- At most `n` reports, and after them the end once at most. -/
def Wire.Ordered (w : Wire) (n : Nat) : Prop :=
  ∃ body tail, w.reports = body ++ tail ∧ (∀ rep ∈ body, rep.cb ≠ .finish) ∧ body.length ≤ n ∧
    (tail = [] ∨ ∃ last, tail = [last] ∧ last.cb = .finish)

/-- What has been reported when the session ends. -/
def Wire.Complete (w : Wire) (n : Nat) (halted : Prop) (body : List Report) : Prop :=
  match w.opened with
  | some true => (∀ rep ∈ body, rep.cb.isResult = true) ∧ body.length ≤ n ∧
      (body.length = n ∨ halted)
  | some false => body.map (·.cb) = [.noSocket]
  | none => False

/-- And then the end, once. -/
def Wire.Ended (w : Wire) (n : Nat) (halted : Prop) : Prop :=
  ∃ body last, w.reports = body ++ [last] ∧ last.cb = .finish ∧ w.Complete n halted body

/-- `esp_ping_stop` or `esp_ping_delete_session` has been called. -/
def Session.Halted (s : Session) : Prop := s.stop = true ∨ s.deleted = true

/-- The requests are numbered in order, and a success is reported for one that `G` lets through. -/
def Wire.Numbered (w : Wire) (G : UInt32 → Round → Prop) : Prop :=
  ∀ k rep, w.reports[k]? = some rep → rep.cb.isResult = true →
    ∃ r, rep.round = some r ∧ r.seqno = (k + 1) % 2 ^ 16 ∧
      (rep.cb = .success ↔ r.success w.target = true) ∧ G w.target r

namespace Pinger

/-- Each success is for a reply with the number of the request just sent; the reports come in order,
and when the task has gone they are complete. -/
structure Reported (g : Pinger) : Prop where
  ordered : g.wire.Ordered (max g.session.count 1)
  carried : ∀ k rep, g.wire.reports[k]? = some rep → rep.cb = .success →
    ∃ r p, rep.round = some r ∧ r.seqno = (k + 1) % 2 ^ 16 ∧ r.packets.head? = some p ∧
      p.Carries g.wire.target r.seqno
  ended : g.session.started = true → g.session.task = none →
    g.wire.Ended (max g.session.count 1) g.session.Halted

end Pinger

/-! ## Where the task is -/

namespace Wire

variable (w : Wire) (n : Nat) (halted : Prop) (G : UInt32 → Round → Prop)

/-- `i` requests have been sent and reported on. -/
def Looping (i : Nat) : Prop :=
  w.opened = some true ∧ (∀ rep ∈ w.reports, rep.cb.isResult = true) ∧ w.reports.length = i ∧
    w.seqno = i % 2 ^ 16 ∧ i ≤ n

/-- One more has been sent, with this result. -/
def Answered (i : Nat) (ok : Bool) : Prop :=
  w.opened = some true ∧ (∀ rep ∈ w.reports, rep.cb.isResult = true) ∧ w.reports.length = i ∧
    i < n ∧ w.seqno = (i + 1) % 2 ^ 16 ∧
    ∃ r, w.round = some r ∧ r.seqno = w.seqno ∧ r.success w.target = ok ∧ G w.target r

/-- Before a report. -/
def Due : Callback → Nat → Prop
  | .success, i => w.Answered n G i true
  | .timeout, i => w.Answered n G i false
  | .noSocket, _ => w.opened = some false ∧ w.reports = []
  | .finish, _ => w.Complete n halted w.reports

/-- After it. -/
def Made : Callback → Nat → Prop
  | .success, i | .timeout, i => w.Looping n (i + 1)
  | .noSocket, _ => w.Complete n halted w.reports
  | .finish, _ => w.Ended n halted

def At : TaskPc → Prop
  | .config reads => reads ≤ 5 ∧ w.seqno = 0 ∧ w.reports = []
  | .opening => w.seqno = 0 ∧ w.reports = []
  | .testStop i => w.Looping n i
  | .testDeleted i | .delaying i | .retestStop i | .retestDeleted i | .sending i =>
    w.Looping n i ∧ i < n
  | .timing i => w.Answered n G i true
  | .report cb i | .args cb i => w.Due n halted G cb i
  | .inside cb i _ => w.Made n halted cb i
  | .lastTest | .freeing | .exiting => w.Ended n halted

variable {w : Wire} {n : Nat} {halted halted' : Prop} {G : UInt32 → Round → Prop}

theorem Complete.mono {body : List Report} (h : w.Complete n halted body)
    (hh : halted → halted') : w.Complete n halted' body := by
  unfold Complete at h ⊢
  split at h
  · exact ⟨h.1, h.2.1, h.2.2.imp_right hh⟩
  · exact h
  · exact h

theorem Ended.mono (h : w.Ended n halted) (hh : halted → halted') : w.Ended n halted' := by
  obtain ⟨body, last, hreports, hlast, hbody⟩ := h
  exact ⟨body, last, hreports, hlast, hbody.mono hh⟩

/-- Stopping the session does not undo anything. -/
theorem At.mono {pc : TaskPc} (h : w.At n halted G pc) (hh : halted → halted') :
    w.At n halted' G pc := by
  cases pc with
  | report cb i | args cb i =>
    cases cb with
    | finish => exact Complete.mono h hh
    | success | timeout | noSocket => exact h
  | inside cb i api =>
    cases cb with
    | noSocket => exact Complete.mono h hh
    | finish => exact Ended.mono h hh
    | success | timeout => exact h
  | lastTest | freeing | exiting => exact Ended.mono h hh
  | _ => exact h

/-! ### In order -/

theorem ne_finish {cb : Callback} (h : cb.isResult = true) : cb ≠ .finish := by
  rintro rfl
  cases h

theorem Complete.ordered {body : List Report} (h : w.Complete n halted body) (hpos : 0 < n) :
    (∀ rep ∈ body, rep.cb ≠ .finish) ∧ body.length ≤ n := by
  unfold Complete at h
  split at h
  · exact ⟨fun rep hmem => ne_finish (h.1 rep hmem), h.2.1⟩
  · constructor
    · intro rep hmem heq
      have hcb := List.mem_map_of_mem (f := Report.cb) hmem
      rw [h, heq] at hcb
      simp at hcb
    · have hlen := congrArg List.length h
      rw [List.length_map, List.length_singleton] at hlen
      omega
  · cases h

theorem Complete.ordered_reports (h : w.Complete n halted w.reports) (hpos : 0 < n) :
    w.Ordered n :=
  ⟨w.reports, [], (List.append_nil _).symm, (h.ordered hpos).1, (h.ordered hpos).2, Or.inl rfl⟩

theorem Ended.ordered (h : w.Ended n halted) (hpos : 0 < n) : w.Ordered n := by
  obtain ⟨body, last, hreports, hlast, hbody⟩ := h
  exact ⟨body, [last], hreports, (hbody.ordered hpos).1, (hbody.ordered hpos).2,
    Or.inr ⟨last, rfl, hlast⟩⟩

theorem ordered_nil (h : w.reports = []) : w.Ordered n :=
  ⟨[], [], h, by simp, Nat.zero_le n, Or.inl rfl⟩

theorem ordered_results (hres : ∀ rep ∈ w.reports, rep.cb.isResult = true)
    (hlen : w.reports.length ≤ n) : w.Ordered n :=
  ⟨w.reports, [], (List.append_nil _).symm, fun rep hmem => ne_finish (hres rep hmem), hlen,
    Or.inl rfl⟩

theorem Looping.ordered {i : Nat} (h : w.Looping n i) : w.Ordered n := by
  obtain ⟨-, hres, hlen, -, hle⟩ := h
  exact ordered_results hres (by omega)

theorem Answered.ordered {i : Nat} {ok : Bool} (h : w.Answered n G i ok) : w.Ordered n := by
  obtain ⟨-, hres, hlen, hlt, -⟩ := h
  exact ordered_results hres (by omega)

theorem At.ordered {pc : TaskPc} (h : w.At n halted G pc) (hpos : 0 < n) : w.Ordered n := by
  cases pc with
  | config reads => exact ordered_nil h.2.2
  | opening => exact ordered_nil h.2
  | testStop i => exact Looping.ordered h
  | testDeleted i | delaying i | retestStop i | retestDeleted i | sending i =>
    exact Looping.ordered h.1
  | timing i => exact Answered.ordered h
  | report cb i | args cb i =>
    cases cb with
    | success | timeout => exact Answered.ordered h
    | noSocket => exact ordered_nil h.2
    | finish => exact Complete.ordered_reports h hpos
  | inside cb i api =>
    cases cb with
    | success | timeout => exact Looping.ordered h
    | noSocket => exact Complete.ordered_reports h hpos
    | finish => exact Ended.ordered h hpos
  | lastTest | freeing | exiting => exact Ended.ordered h hpos

/-! ### Reporting -/

theorem Answered.tell {i : Nat} {ok : Bool} {cb : Callback} (h : w.Answered n G i ok)
    (hcb : cb.isResult = true) : (w.tell cb).Looping n (i + 1) := by
  obtain ⟨hopened, hres, hlen, hlt, hseqno, -⟩ := h
  refine ⟨hopened, fun rep hmem => ?_, by simp [Wire.tell, hlen], hseqno, hlt⟩
  rcases List.mem_append.mp hmem with hmem | hmem
  · exact hres rep hmem
  · obtain rfl := List.mem_singleton.mp hmem
    exact hcb

theorem Due.tell {cb : Callback} {i : Nat} (h : w.Due n halted G cb i) :
    (w.tell cb).Made n halted cb i := by
  cases cb with
  | success | timeout => exact Answered.tell h rfl
  | noSocket =>
    obtain ⟨hopened, hnil⟩ := h
    simp [Made, Complete, Wire.tell, hopened, hnil]
  | finish => exact ⟨w.reports, ⟨.finish, w.round⟩, rfl, rfl, h⟩

theorem Due.numbered {cb : Callback} {i : Nat} (h : w.Due n halted G cb i)
    (hnum : w.Numbered G) : (w.tell cb).Numbered G := by
  intro k rep hk hcb
  rcases Nat.lt_or_ge k w.reports.length with hlt | hge
  · rw [Wire.tell, List.getElem?_append_left hlt] at hk
    exact hnum k rep hk hcb
  · rw [Wire.tell, List.getElem?_append_right hge] at hk
    obtain ⟨hzero, rfl⟩ := List.getElem?_eq_some_iff.mp hk
    rw [List.length_singleton] at hzero
    rw [List.getElem_singleton] at hcb ⊢
    have hkey : ∀ ok, w.Answered n G i ok → (cb = .success ↔ ok = true) →
        ∃ r, w.round = some r ∧ r.seqno = (k + 1) % 2 ^ 16 ∧
          (cb = .success ↔ r.success w.target = true) ∧ G w.target r := by
      rintro ok ⟨-, -, hlen, -, hseqno, r, hround, hr, hok, hG⟩ hiff
      refine ⟨r, hround, ?_, hok ▸ hiff, hG⟩
      rw [hr, hseqno, show i = k by omega]
    cases cb with
    | success => exact hkey true h (by simp)
    | timeout => exact hkey false h (by simp)
    | noSocket | finish => cases hcb

theorem Made.at_after {cb : Callback} {i : Nat} (h : w.Made n halted cb i) :
    w.At n halted G (Session.after cb i) := by
  cases cb <;> exact h

end Wire

/-! ## Steps of the session -/

/-- It starts the session. -/
def Api.starts : Api → Bool
  | starting true | spawning => true
  | idle | starting false | stopping | marking | unwinding | profiling => false

/-- No callback does. -/
def TaskPc.calm : TaskPc → Bool
  | inside _ _ api => !api.starts
  | _ => true

theorem TaskPc.starts_eq {cb : Callback} {i : Nat} {api : Api}
    (h : (inside cb i api).calm = true) : api.starts = false := by
  simpa [calm] using h

namespace Session

variable {s s' : Session} {api : Api} {pc : TaskPc}

theorem rounds_eq : s.rounds = max s.count 1 := by
  unfold rounds
  split <;> omega

/-- What the task and most calls leave alone. -/
structure Same (s s' : Session) : Prop where
  count : s'.count = s.count
  started : s'.started = s.started
  owner : s'.owner = s.owner
  halted : s.Halted → s'.Halted

theorem same_apiStep (s : Session) (h : api.starts = false) :
    Same s (s.apiStep api).1 ∧ (s.apiStep api).1.task = s.task ∧
      (s.apiStep api).2.starts = false := by
  cases api with
  | starting ok =>
    cases ok with
    | true => cases h
    | false => exact ⟨⟨rfl, rfl, rfl, id⟩, rfl, rfl⟩
  | spawning => cases h
  | idle | profiling => exact ⟨⟨rfl, rfl, rfl, id⟩, rfl, rfl⟩
  | stopping | unwinding => exact ⟨⟨rfl, rfl, rfl, fun _ => Or.inl rfl⟩, rfl, rfl⟩
  | marking => exact ⟨⟨rfl, rfl, rfl, fun _ => Or.inr rfl⟩, rfl, rfl⟩

theorem same_goto (s : Session) (pc : TaskPc) : Same s (s.goto pc) := ⟨rfl, rfl, rfl, id⟩

theorem same_touch_goto (s : Session) (pc : TaskPc) : Same s (s.touch.goto pc) :=
  ⟨rfl, rfl, rfl, id⟩

theorem same_taskStep (s : Session) (ok : Bool) (h : pc.calm = true) :
    Same s (s.taskStep ok pc) := by
  cases pc with
  | config reads => cases reads <;> exact ⟨rfl, rfl, rfl, id⟩
  | inside cb i api =>
    simp only [taskStep]
    split
    · exact same_goto s _
    · obtain ⟨hsame, -, -⟩ := same_apiStep s (TaskPc.starts_eq h)
      exact ⟨hsame.count, hsame.started, hsame.owner, hsame.halted⟩
  | testStop i =>
    simp only [taskStep]
    split
    · split <;> exact same_touch_goto s _
    · exact same_goto s _
  | testDeleted i =>
    simp only [taskStep]
    split
    · exact same_touch_goto s _
    · split <;> exact same_touch_goto s _
  | opening | sending i =>
    simp only [taskStep]
    split <;> exact same_goto s _
  | retestStop i | retestDeleted i | report cb i | lastTest =>
    simp only [taskStep]
    split <;> exact same_touch_goto s _
  | delaying i | timing i | args cb i | freeing | exiting => exact ⟨rfl, rfl, rfl, id⟩

end Session

/-! ## The statements that are left -/

/-- Until a call in a callback has returned. -/
def Api.left : Api → Nat
  | idle => 0
  | starting _ | marking => 2
  | spawning | stopping | unwinding | profiling => 1

/-- From the report on. -/
def Callback.left (n i : Nat) : Callback → Nat
  | success | timeout => 10 * (n - i)
  | noSocket => 9
  | finish => 6

/-- Until the task has gone, at most: ten in each of `n` rounds. -/
def TaskPc.left (n : Nat) : TaskPc → Nat
  | config reads => 10 * n + 11 + reads
  | opening => 10 * n + 10
  | testStop i => 10 * (n - i) + 7
  | testDeleted i => 10 * (n - i) + 6
  | delaying i => 10 * (n - i) + 5
  | retestStop i => 10 * (n - i) + 4
  | retestDeleted i => 10 * (n - i) + 3
  | sending i => 10 * (n - i) + 2
  | timing i => 10 * (n - i) + 1
  | report cb i => cb.left n i
  | args cb i => cb.left n i - 1
  | inside cb i api => cb.left n i - 2 + api.left
  | lastTest => 3
  | freeing => 2
  | exiting => 1

theorem TaskPc.left_report (n : Nat) (cb : Callback) (i : Nat) :
    (report cb i).left n = cb.left n i := rfl

theorem TaskPc.left_args (n : Nat) (cb : Callback) (i : Nat) :
    (args cb i).left n = cb.left n i - 1 := rfl

theorem TaskPc.left_inside (n : Nat) (cb : Callback) (i : Nat) (api : Api) :
    (inside cb i api).left n = cb.left n i - 2 + api.left := rfl

theorem Api.left_entry (c : PingCall) : c.entry.left ≤ 2 := by
  cases c <;> simp [PingCall.entry, Api.left]

theorem Session.left_apiStep (s : Session) {api : Api} (h : api ≠ .idle) :
    (s.apiStep api).2.left < api.left := by
  cases api with
  | idle => exact absurd rfl h
  | starting ok => cases ok <;> simp [apiStep, Api.left]
  | _ => simp [apiStep, Api.left]

namespace Wire

variable {w : Wire} {n : Nat} {halted : Prop} {G : UInt32 → Round → Prop}

/-- A report that is due, or has just been made, has its three statements left. -/
theorem Due.left {cb : Callback} {i : Nat} (h : w.Due n halted G cb i) : 6 ≤ cb.left n i := by
  cases cb with
  | success | timeout =>
    obtain ⟨-, -, -, hlt, -⟩ := h
    simp only [Callback.left]
    omega
  | noSocket | finish => simp [Callback.left]

theorem Made.left {cb : Callback} {i : Nat} (h : w.Made n halted cb i) : 6 ≤ cb.left n i := by
  cases cb with
  | success | timeout =>
    obtain ⟨-, -, -, -, hle⟩ := h
    simp only [Callback.left]
    omega
  | noSocket | finish => simp [Callback.left]

theorem left_after {cb : Callback} {i : Nat} (h : 6 ≤ cb.left n i) :
    (Session.after cb i).left n < cb.left n i - 2 := by
  cases cb with
  | success | timeout =>
    simp only [Callback.left, Session.after, TaskPc.left] at h ⊢
    omega
  | noSocket | finish => simp [Callback.left, Session.after, TaskPc.left]

theorem At.left_pos {pc : TaskPc} (h : w.At n halted G pc) : 0 < pc.left n := by
  cases pc with
  | report cb i | args cb i =>
    have hleft := Due.left h
    simp only [TaskPc.left]
    omega
  | inside cb i api =>
    have hleft := Made.left h
    simp only [TaskPc.left]
    omega
  | _ =>
    simp only [TaskPc.left]
    omega

theorem At.left_le {pc : TaskPc} (h : w.At n halted G pc) : pc.left n ≤ 10 * n + 16 := by
  have hcb : ∀ (cb : Callback) (i : Nat), cb.left n i ≤ 10 * n + 9 := by
    intro cb i
    cases cb <;> simp only [Callback.left] <;> omega
  cases pc with
  | config reads =>
    have hle := h.1
    simp only [TaskPc.left]
    omega
  | report cb i | args cb i =>
    have hle := hcb cb i
    simp only [TaskPc.left]
    omega
  | inside cb i api =>
    have hle := hcb cb i
    have hapi : api.left ≤ 2 := by cases api <;> simp [Api.left]
    simp only [TaskPc.left]
    omega
  | _ =>
    simp only [TaskPc.left]
    omega

theorem At.left_taskStep {pc pc' : TaskPc} {s : Session} {ok : Bool} (h : w.At s.rounds halted G pc)
    (hpc : (s.taskStep ok pc).task = some pc') : pc'.left s.rounds < pc.left s.rounds := by
  cases pc with
  | config reads =>
    cases reads <;> cases hpc <;> simp [TaskPc.left]
  | opening =>
    simp only [Session.taskStep] at hpc
    split at hpc <;> cases hpc <;> simp [TaskPc.left, Callback.left]
  | testStop i =>
    simp only [Session.taskStep] at hpc
    split at hpc
    · split at hpc <;> cases hpc <;> simp [TaskPc.left, Callback.left]
    · cases hpc
      simp [TaskPc.left, Callback.left]
  | testDeleted i =>
    have hlt := h.2
    simp only [Session.taskStep] at hpc
    split at hpc
    · cases hpc
      simp only [TaskPc.left, Callback.left]
      omega
    · split at hpc <;> cases hpc <;> simp [TaskPc.left]
  | delaying i | timing i => cases hpc; simp [TaskPc.left, Callback.left]
  | retestStop i | retestDeleted i | sending i =>
    have hlt := h.2
    simp only [Session.taskStep] at hpc
    split at hpc <;> cases hpc <;> simp only [TaskPc.left, Callback.left] <;> omega
  | report cb i =>
    have hleft := Due.left h
    have hafter := left_after hleft
    simp only [Session.taskStep] at hpc
    split at hpc <;> cases hpc <;> rw [TaskPc.left_report]
    · rw [TaskPc.left_args]
      omega
    · omega
  | args cb i =>
    have hleft := Due.left h
    cases hpc
    rw [TaskPc.left_args, TaskPc.left_inside, Api.left]
    omega
  | inside cb i api =>
    have hafter := left_after (Made.left h)
    simp only [Session.taskStep] at hpc
    rw [TaskPc.left_inside]
    split at hpc
    · cases hpc
      omega
    · next hidle =>
      have hapi := s.left_apiStep hidle
      cases hpc
      rw [TaskPc.left_inside]
      omega
  | lastTest =>
    simp only [Session.taskStep] at hpc
    split at hpc <;> cases hpc <;> simp [TaskPc.left]
  | freeing => cases hpc; simp [TaskPc.left]
  | exiting => cases hpc

end Wire

end Bl616cl.Ping
