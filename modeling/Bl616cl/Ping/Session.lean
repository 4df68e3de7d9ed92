import Bl616cl.Lib.Run

/-!
# The memory of a ping session

`esp_ping.cpp`: the handle that `esp_ping_new_session` allocates is read and written by the calls of
an owner task and by `esp_ping_task`, which also runs the session's callbacks; these may call the
same functions. A step is one access of either task. The ping task frees the handle if it finds
`deleted` set when it is done.
-/

namespace Bl616cl.Ping

open Bl616cl.Lib

/-- The next statement of a call on the handle. -/
inductive Api where
  | idle
  /-- `xTaskCreate`, which writes the task's handle before the task can run. -/
  | starting (ok : Bool)
  | spawning
  | stopping
  /-- `esp_ping_delete_session` sets `deleted`. -/
  | marking
  /-- And then `stop`. -/
  | unwinding
  | profiling
  deriving DecidableEq, Repr

/-- It reads or writes a field of the handle. -/
def Api.touches : Api → Bool
  | idle | starting false | spawning => false
  | starting true | stopping | marking | unwinding | profiling => true

inductive PingCall where
  | start (ok : Bool)
  | stop
  | delete
  | getProfile
  deriving DecidableEq, Repr

def PingCall.entry : PingCall → Api
  | start ok => .starting ok
  | stop => .stopping
  | delete => .marking
  | getProfile => .profiling

/-- The callbacks; `noSocket` is `on_ping_timeout` where there is no socket to ping with. -/
inductive Callback where
  | success | timeout | noSocket | finish
  deriving DecidableEq, Repr

/-- The next access of `esp_ping_task`, in round `i`. -/
inductive TaskPc where
  /-- The reads of `config` before the first round that are still to come. -/
  | config (reads : Nat)
  | opening
  | testStop (i : Nat)
  | testDeleted (i : Nat)
  /-- The interval between two rounds, with its own tests. -/
  | delaying (i : Nat)
  | retestStop (i : Nat)
  | retestDeleted (i : Nat)
  | sending (i : Nat)
  /-- `last_timegap_ms`. -/
  | timing (i : Nat)
  | report (cb : Callback) (i : Nat)
  | args (cb : Callback) (i : Nat)
  /-- In the callback, which may be inside a call itself. -/
  | inside (cb : Callback) (i : Nat) (api : Api)
  | lastTest
  | freeing
  | exiting
  deriving DecidableEq, Repr

/-- The handle may still be read or written by the task, or is about to be freed. -/
def TaskPc.holds : TaskPc → Bool
  | exiting => false
  | _ => true

/-- The last test of `deleted` is still to come. -/
def TaskPc.willTest : TaskPc → Bool
  | freeing | exiting => false
  | _ => true

inductive Party where
  | owner | callback
  deriving DecidableEq, Repr

structure Session where
  /-- `config.count` and `config.interval_ms`. -/
  count : Nat
  intervalMs : Nat
  hasCallback : Callback → Bool
  stop : Bool
  deleted : Bool
  owner : Api
  task : Option TaskPc
  /-- A start has succeeded. -/
  started : Bool
  /-- Who has called `esp_ping_delete_session`, and whether it has returned. -/
  deletedBy : Option Party
  deleteReturned : Bool
  /-- How often the handle has been freed. -/
  freed : Nat
  /-- A field has been read or written after that. -/
  dangling : Bool

inductive PingLabel where
  | call (p : Party) (c : PingCall)
  /-- The next statement of the owner's call. -/
  | owner
  /-- The next access of the ping task; `ok` says whether there is a socket, or a reply. -/
  | task (ok : Bool)
  deriving DecidableEq, Repr

namespace Session

/-- `esp_ping_new_session`. -/
def newSession (count intervalMs : Nat) (hasCallback : Callback → Bool) : Session :=
  ⟨count, intervalMs, hasCallback, false, false, .idle, none, false, none, false, 0, false⟩

variable (s : Session)

/-! ## Steps -/

/-- Reading or writing a field. -/
def touch : Session := { s with dangling := s.dangling || decide (s.freed > 0) }

/-- The calls on the handle. -/
def apiStep : Api → Session × Api
  | .idle => (s, .idle)
  | .starting ok => if ok then (s.touch, .spawning) else (s, .idle)
  | .spawning => ({ s with task := some (.config 5), started := true }, .idle)
  | .stopping => ({ s.touch with stop := true }, .idle)
  | .marking => ({ s.touch with deleted := true }, .unwinding)
  | .unwinding => ({ s.touch with stop := true, deleteReturned := true }, .idle)
  | .profiling => (s.touch, .idle)

def goto (pc : TaskPc) : Session := { s with task := some pc }

/-- After a callback. -/
def after : Callback → Nat → TaskPc
  | .success, i | .timeout, i => .testStop (i + 1)
  | .noSocket, i => .report .finish i
  | .finish, _ => .lastTest

/-- The number of rounds; the source's `count`. -/
def rounds : Nat := if s.count = 0 then 1 else s.count

/-- `esp_ping_task`. The five reads of `config` are `count`, `interval_ms`, `timeout_ms`,
`target_addr` and `ttl`. -/
def taskStep (ok : Bool) : TaskPc → Session
  | .config 0 => s.goto .opening
  | .config (reads + 1) => s.touch.goto (.config reads)
  | .opening => if ok then s.goto (.testStop 0) else s.goto (.report .noSocket 0)
  | .testStop i =>
    if i < s.rounds then
      if s.stop then s.touch.goto (.report .finish i) else s.touch.goto (.testDeleted i)
    else s.goto (.report .finish i)
  | .testDeleted i =>
    if s.deleted then s.touch.goto (.report .finish i)
    else if 0 < i ∧ 0 < s.intervalMs then s.touch.goto (.delaying i)
    else s.touch.goto (.sending i)
  | .delaying i => s.goto (.retestStop i)
  | .retestStop i =>
    if s.stop then s.touch.goto (.report .finish i) else s.touch.goto (.retestDeleted i)
  | .retestDeleted i =>
    if s.deleted then s.touch.goto (.report .finish i) else s.touch.goto (.sending i)
  | .sending i => if ok then s.goto (.timing i) else s.goto (.report .timeout i)
  | .timing i => s.touch.goto (.report .success i)
  | .report cb i =>
    if s.hasCallback cb then s.touch.goto (.args cb i) else s.touch.goto (after cb i)
  | .args cb i => s.touch.goto (.inside cb i .idle)
  | .inside cb i api =>
    if api = .idle then s.goto (after cb i)
    else (s.apiStep api).1.goto (.inside cb i (s.apiStep api).2)
  | .lastTest => if s.deleted then s.touch.goto .freeing else s.touch.goto .exiting
  | .freeing => { s with freed := s.freed + 1 }.goto .exiting
  | .exiting => { s with task := none }

/-- A party begins a call. -/
def begins (p : Party) (c : PingCall) : Session :=
  { s with deletedBy := if c = .delete then some p else s.deletedBy }

def step : PingLabel → Session
  | .call .owner c => if s.owner = .idle then { s.begins .owner c with owner := c.entry } else s
  | .call .callback c =>
    match s.task with
    | some (.inside cb i .idle) => (s.begins .callback c).goto (.inside cb i c.entry)
    | _ => s
  | .owner => { (s.apiStep s.owner).1 with owner := (s.apiStep s.owner).2 }
  | .task ok =>
    match s.task with
    | none => s
    | some pc => s.taskStep ok pc

/-- At most one start succeeds, the session is deleted once, and who has deleted it makes no other
call. -/
def Legal : PingLabel → Prop
  | .call p c => s.deletedBy ≠ some p ∧ (c = .delete → s.deletedBy = none) ∧
    (c = .start true → s.started = false)
  | _ => True

/-! ## The property and its condition -/

/-- Nothing is read or written after the free, and what has been deleted is freed once. -/
structure Released : Prop where
  sound : s.dangling = false
  once : s.freed ≤ 1
  collected : s.deleteReturned = true → s.task = none → s.freed = 1

/-- The owner is not inside a call when the handle is freed and makes none afterwards; and it
deletes while the ping task runs, before the task's last test. -/
def Timely : PingLabel → Prop
  | .call .owner c => 0 < s.freed → c.entry.touches = false
  | .owner => s.owner = .marking → ∃ pc ∈ s.task, pc.willTest = true
  | .task _ => s.task = some .freeing → s.owner.touches = false
  | .call .callback _ => True

/-- What holds inside a call. -/
def ApiOk (p : Party) : Api → Prop
  | .starting true | .spawning => p = .owner ∧ s.started = false
  | .unwinding => s.deleted = true
  | .idle | .starting false | .stopping | .marking | .profiling => True

/-- What holds where the task is: until it is done the handle is there. -/
def TaskOk : TaskPc → Prop
  | .exiting => True
  | .freeing => s.freed = 0 ∧ s.deleted = true
  | .inside _ _ api => s.freed = 0 ∧ s.ApiOk .callback api
  | _ => s.freed = 0

/-- The invariant over runs. -/
structure Inv : Prop where
  sound : s.dangling = false
  once : s.freed ≤ 1
  owner : s.ApiOk .owner s.owner
  away : 0 < s.freed → s.owner.touches = false
  task : ∀ pc ∈ s.task, s.TaskOk pc
  /-- A session that is marked deleted is freed, or will be. -/
  kept : s.deleted = true → s.freed = 1 ∨ ∃ pc ∈ s.task, pc.holds = true
  returned : s.deleteReturned = true → s.deleted = true
  unstarted : s.started = false → s.task = none ∧ s.freed = 0

variable {s : Session} {api : Api} {pc : TaskPc}

theorem inv_new (count intervalMs : Nat) (hasCallback : Callback → Bool) :
    Inv (newSession count intervalMs hasCallback) := by
  refine ⟨rfl, Nat.zero_le _, trivial, ?_, ?_, ?_, ?_, fun _ => ⟨rfl, rfl⟩⟩ <;> simp [newSession]

theorem released_of_inv (h : Inv s) : Released s := by
  refine ⟨h.sound, h.once, fun hret hnone => ?_⟩
  refine (h.kept (h.returned hret)).resolve_right ?_
  rintro ⟨pc, hpc, -⟩
  rw [hnone] at hpc
  cases hpc

/-! ## Accesses -/

/-- While the handle is there, reading and writing it does no harm. -/
theorem touch_eq (h : s.freed = 0) : s.touch = s := by
  have hd : (s.dangling || decide (s.freed > 0)) = s.dangling := by simp [h]
  rw [touch, hd]

theorem freed_eq (h : Inv s) (htask : s.task = some pc) (hpc : pc.holds = true) : s.freed = 0 := by
  have hok := h.task pc htask
  cases pc with
  | exiting => cases hpc
  | freeing | inside cb i api => exact hok.1
  | config reads => exact hok
  | _ => exact hok

theorem freed_of_touches (h : Inv s) (ht : s.owner.touches = true) : s.freed = 0 := by
  by_contra hfreed
  rw [h.away (Nat.pos_of_ne_zero hfreed)] at ht
  cases ht

theorem touch_owner (h : Inv s) (ht : s.owner.touches = true) : s.touch = s :=
  touch_eq (freed_of_touches h ht)

/-! ## What a step may change -/

theorem inv_stop (h : Inv s) : Inv { s with stop := true } :=
  ⟨h.sound, h.once, h.owner, h.away, h.task, h.kept, h.returned, h.unstarted⟩

theorem inv_owner (h : Inv s) (hok : s.ApiOk .owner api)
    (haway : 0 < s.freed → api.touches = false) : Inv { s with owner := api } :=
  ⟨h.sound, h.once, hok, haway, h.task, h.kept, h.returned, h.unstarted⟩

theorem inv_goto {pc' : TaskPc} (h : Inv s) (htask : s.task = some pc)
    (hok : s.TaskOk pc') (hend : s.deleted = true → pc'.holds = true) : Inv (s.goto pc') := by
  refine ⟨h.sound, h.once, h.owner, h.away, ?_, fun hdel => Or.inr ⟨pc', rfl, hend hdel⟩,
    h.returned, fun hs => ?_⟩
  · rintro pc ⟨rfl⟩
    exact hok
  · have hnone := (h.unstarted hs).1
    rw [htask] at hnone
    cases hnone

theorem ApiOk.mark {p : Party} (h : s.ApiOk p api) : ApiOk { s with deleted := true } p api := by
  unfold ApiOk at h ⊢
  split <;> simp_all

theorem inv_mark (h : Inv s) (hrun : ∃ pc ∈ s.task, pc.holds = true) :
    Inv { s with deleted := true } := by
  refine ⟨h.sound, h.once, h.owner.mark, h.away, fun pc hpc => ?_, fun _ => Or.inr hrun,
    fun _ => rfl, h.unstarted⟩
  have hok := h.task pc hpc
  cases pc with
  | freeing => exact ⟨hok.1, rfl⟩
  | inside cb i api => exact ⟨hok.1, hok.2.mark⟩
  | exiting => trivial
  | _ => exact hok

theorem inv_return (h : Inv s) (hdel : s.deleted = true) :
    Inv { s with stop := true, deleteReturned := true } :=
  ⟨h.sound, h.once, h.owner, h.away, h.task, h.kept, fun _ => hdel, h.unstarted⟩

/-! ## Steps of the owner -/

theorem inv_begins (h : Inv s) (p : Party) (c : PingCall) : Inv (s.begins p c) :=
  ⟨h.sound, h.once, h.owner, h.away, h.task, h.kept, h.returned, h.unstarted⟩

theorem apiOk_entry {p : Party} {c : PingCall}
    (h : c = .start true → p = .owner ∧ s.started = false) : s.ApiOk p c.entry := by
  cases c with
  | start ok =>
    cases ok with
    | true => exact h rfl
    | false => trivial
  | stop | delete | getProfile => trivial

theorem inv_ownerCalls {c : PingCall} (h : Inv s) (hv : s.Legal (.call .owner c))
    (hc : s.Timely (.call .owner c)) : Inv (s.step (.call .owner c)) := by
  simp only [step]
  split
  · exact inv_owner (inv_begins h .owner c) (apiOk_entry fun hs => ⟨rfl, hv.2.2 hs⟩) hc
  · exact h

theorem inv_ownerStep (h : Inv s) (hc : s.Timely .owner) : Inv (s.step .owner) := by
  have hok := h.owner
  simp only [step]
  cases hp : s.owner with
  | idle => exact inv_owner h trivial fun _ => rfl
  | starting ok =>
    rw [hp] at hok
    cases ok with
    | false => exact inv_owner h trivial fun _ => rfl
    | true =>
      rw [apiStep, if_pos rfl, touch_owner h (by rw [hp]; rfl)]
      exact inv_owner h hok fun _ => rfl
  | spawning =>
    rw [hp] at hok
    have hzero := (h.unstarted hok.2).2
    refine ⟨h.sound, h.once, trivial, fun _ => rfl, ?_, fun _ => Or.inr ⟨_, rfl, rfl⟩,
      h.returned, ?_⟩
    · rintro pc ⟨rfl⟩
      exact hzero
    · intro hs
      cases hs
  | stopping =>
    rw [apiStep, touch_owner h (by rw [hp]; rfl)]
    exact inv_owner (inv_stop h) trivial fun _ => rfl
  | marking =>
    obtain ⟨pc, hpc, htest⟩ := hc hp
    have hzero := freed_of_touches h (by rw [hp]; rfl)
    have hrun : pc.holds = true := by
      cases pc <;> first | rfl | cases htest
    rw [apiStep, touch_eq hzero]
    refine inv_owner (inv_mark h ⟨pc, hpc, hrun⟩) rfl fun hpos => ?_
    exact absurd hzero (Nat.pos_iff_ne_zero.mp hpos)
  | unwinding =>
    rw [hp] at hok
    rw [apiStep, touch_owner h (by rw [hp]; rfl)]
    exact inv_owner (inv_return h hok) trivial fun _ => rfl
  | profiling =>
    rw [apiStep, touch_owner h (by rw [hp]; rfl)]
    exact inv_owner h trivial fun _ => rfl

/-! ## Steps of the ping task -/

theorem inv_callbackCalls {c : PingCall} (h : Inv s) (hv : s.Legal (.call .callback c)) :
    Inv (s.step (.call .callback c)) := by
  simp only [step]
  split
  · next cb i htask =>
    refine inv_goto (inv_begins h .callback c) htask ⟨(h.task _ htask).1, ?_⟩ fun _ => rfl
    refine apiOk_entry fun hs => ?_
    have hnone := (h.unstarted (hv.2.2 hs)).1
    rw [htask] at hnone
    cases hnone
  · exact h

theorem inv_inside {cb : Callback} {i : Nat} (h : Inv s) (htask : s.task = some (.inside cb i api))
    (hidle : api ≠ .idle) :
    Inv ((s.apiStep api).1.goto (.inside cb i (s.apiStep api).2)) := by
  obtain ⟨hzero, hok⟩ := h.task _ htask
  have hrun : ∃ pc ∈ s.task, pc.holds = true := ⟨_, htask, rfl⟩
  cases api with
  | idle => exact absurd rfl hidle
  | starting ok =>
    cases ok with
    | false => exact inv_goto h htask ⟨hzero, trivial⟩ fun _ => rfl
    | true => cases hok.1
  | spawning => cases hok.1
  | stopping =>
    rw [apiStep, touch_eq hzero]
    exact inv_goto (inv_stop h) htask ⟨hzero, trivial⟩ fun _ => rfl
  | marking =>
    rw [apiStep, touch_eq hzero]
    exact inv_goto (inv_mark h hrun) htask ⟨hzero, rfl⟩ fun _ => rfl
  | unwinding =>
    rw [apiStep, touch_eq hzero]
    exact inv_goto (inv_return h hok) htask ⟨hzero, trivial⟩ fun _ => rfl
  | profiling =>
    rw [apiStep, touch_eq hzero]
    exact inv_goto h htask ⟨hzero, trivial⟩ fun _ => rfl

/-- Most of what the task does is to move on to a place where it holds the handle. -/
theorem inv_move {pc' : TaskPc} (h : Inv s) (htask : s.task = some pc) (hpc : pc.holds = true)
    (hok : s.freed = 0 → s.TaskOk pc') (hend : pc'.holds = true) : Inv (s.goto pc') :=
  inv_goto h htask (hok (freed_eq h htask hpc)) fun _ => hend

theorem inv_after {cb : Callback} {i : Nat} (h : Inv s) (htask : s.task = some pc)
    (hpc : pc.holds = true) : Inv (s.goto (after cb i)) := by
  cases cb <;> exact inv_move h htask hpc id rfl

theorem inv_lastTest (h : Inv s) (htask : s.task = some .lastTest) :
    Inv (s.taskStep true .lastTest) := by
  have hzero := freed_eq h htask rfl
  simp only [taskStep, touch_eq hzero]
  cases hdel : s.deleted with
  | true => exact inv_goto h htask ⟨hzero, hdel⟩ fun _ => rfl
  | false =>
    refine inv_goto h htask trivial fun hdel' => ?_
    rw [hdel] at hdel'
    cases hdel'

theorem inv_freeing (h : Inv s) (htask : s.task = some .freeing) (hc : s.owner.touches = false) :
    Inv ({ s with freed := s.freed + 1 }.goto .exiting) := by
  obtain ⟨hzero, hdel⟩ := h.task _ htask
  refine ⟨h.sound, ?_, h.owner, fun _ => hc, ?_, fun _ => ?_, h.returned, fun hs => ?_⟩
  · simp [goto, hzero]
  · rintro pc ⟨rfl⟩
    trivial
  · simp [goto, hzero]
  · have hnone := (h.unstarted hs).1
    rw [htask] at hnone
    cases hnone

theorem inv_exiting (h : Inv s) (htask : s.task = some .exiting) : Inv { s with task := none } := by
  refine ⟨h.sound, h.once, h.owner, h.away, ?_, fun hdel => ?_, h.returned, fun hs => ?_⟩
  · simp
  · refine Or.inl ((h.kept hdel).resolve_right ?_)
    rintro ⟨pc, hpc, hrun⟩
    rw [htask] at hpc
    obtain rfl := Option.some.inj hpc
    cases hrun
  · exact ⟨rfl, (h.unstarted hs).2⟩

theorem inv_task {ok : Bool} (h : Inv s) (hc : s.Timely (.task ok)) : Inv (s.step (.task ok)) := by
  simp only [step]
  cases htask : s.task with
  | none => exact h
  | some pc =>
    cases pc with
    | freeing => exact inv_freeing h htask (hc htask)
    | exiting => exact inv_exiting h htask
    | lastTest => exact inv_lastTest h htask
    | inside cb i api =>
      simp only [taskStep]
      split
      · exact inv_after h htask rfl
      · next hidle => exact inv_inside h htask hidle
    | report cb i =>
      simp only [taskStep, touch_eq (freed_eq h htask rfl)]
      split
      · exact inv_move h htask rfl id rfl
      · exact inv_after h htask rfl
    | args cb i =>
      simp only [taskStep, touch_eq (freed_eq h htask rfl)]
      exact inv_move h htask rfl (fun hzero => ⟨hzero, trivial⟩) rfl
    | config reads =>
      cases reads with
      | zero => exact inv_move h htask rfl id rfl
      | succ reads =>
        simp only [taskStep, touch_eq (freed_eq h htask rfl)]
        exact inv_move h htask rfl id rfl
    | opening | sending i =>
      simp only [taskStep]
      split <;> exact inv_move h htask rfl id rfl
    | testStop i =>
      simp only [taskStep, touch_eq (freed_eq h htask rfl)]
      split
      · split <;> exact inv_move h htask rfl id rfl
      · exact inv_move h htask rfl id rfl
    | testDeleted i =>
      simp only [taskStep, touch_eq (freed_eq h htask rfl)]
      split
      · exact inv_move h htask rfl id rfl
      · split <;> exact inv_move h htask rfl id rfl
    | retestStop i | retestDeleted i =>
      simp only [taskStep, touch_eq (freed_eq h htask rfl)]
      split <;> exact inv_move h htask rfl id rfl
    | delaying i => exact inv_move h htask rfl id rfl
    | timing i =>
      simp only [taskStep, touch_eq (freed_eq h htask rfl)]
      exact inv_move h htask rfl id rfl

/-! ## Runs -/

/-- **Step**: a timely step keeps the invariant. -/
theorem inv_step (s : Session) (a : PingLabel) (h : Inv s) (hc : s.Legal a ∧ s.Timely a) :
    Inv (s.step a) := by
  cases a with
  | call p c =>
    cases p with
    | owner => exact inv_ownerCalls h hc.1 hc.2
    | callback => exact inv_callbackCalls h hc.1
  | owner => exact inv_ownerStep h hc.2
  | task ok => exact inv_task h hc.2

/-- **Ping**: in every run whose steps are timely, no field is touched after the free, and once the
deletion has returned and no ping task runs the handle has been freed exactly once. -/
theorem released_of_timely (count intervalMs : Nat) (hasCallback : Callback → Bool)
    (labels : List PingLabel) (h : Meets step (fun s a => s.Legal a ∧ s.Timely a)
      (newSession count intervalMs hasCallback) labels) :
    Along step Released (newSession count intervalMs hasCallback) labels :=
  (along_of_meets inv_step (inv_new count intervalMs hasCallback) h).mono fun _ => released_of_inv

/-! ## Deletions at the wrong time -/

/-- Without a ping task nobody frees the handle. -/
theorem not_released_unstarted (ht : s.task = none) (hf : s.freed = 0)
    (hp : s.owner = .marking) : ¬ Released ((s.step .owner).step .owner) := by
  intro h
  have hfreed := h.collected (by simp [step, hp, apiStep]) (by simp [step, hp, apiStep, touch, ht])
  simp [step, hp, apiStep, touch, hf] at hfreed

/-- A task that has made its last test does not free it either. -/
theorem not_released_exiting {ok : Bool} (ht : s.task = some .exiting) (hf : s.freed = 0)
    (hp : s.owner = .marking) : ¬ Released (((s.step .owner).step .owner).step (.task ok)) := by
  intro h
  have hfreed := h.collected (by simp [step, hp, apiStep, touch, ht, taskStep])
    (by simp [step, hp, apiStep, touch, ht, taskStep])
  simp [step, hp, apiStep, touch, hf, ht, taskStep] at hfreed

/-- What the owner still does when the handle has been freed is done to freed memory. -/
theorem not_released_inside (hf : 0 < s.freed) (hp : s.owner.touches = true) :
    ¬ Released (s.step .owner) := by
  intro h
  have htouch : s.touch.dangling = true := by simp [touch, hf]
  have hsound := h.sound
  unfold Api.touches at hp
  simp only [step] at hsound
  split at hp
  · cases hp
  · cases hp
  · cases hp
  all_goals
    next ha =>
      simp only [ha, apiStep, if_true] at hsound
      rw [htouch] at hsound
      cases hsound

/-! ## Runs on one session -/

instance (s : Session) : ∀ a, Decidable (s.Legal a)
  | .call _ _ => inferInstanceAs (Decidable (_ ∧ _))
  | .owner | .task _ => inferInstanceAs (Decidable True)

instance (s : Session) : ∀ a, Decidable (s.Timely a)
  | .call .owner _ | .task _ => inferInstanceAs (Decidable (_ → _))
  | .call .callback _ => inferInstanceAs (Decidable True)
  | .owner => inferInstanceAs
    (Decidable (s.owner = .marking → ∃ pc ∈ s.task, pc.willTest = true))

def starting : List PingLabel := [.call .owner (.start true), .owner, .owner]

/-- One round with a reply, and a deletion from `on_ping_end`. -/
theorem released_fromCallback :
    Along step Released (newSession 1 1000 fun cb => cb == .finish)
      (starting ++ List.replicate 15 (.task true) ++ [.call .callback .delete] ++
        List.replicate 6 (.task true)) :=
  released_of_timely 1 1000 _ _ (by decide)

/-- The ping task frees the handle between the two writes of the owner's deletion. -/
theorem not_released_between : ¬ ∀ (count intervalMs : Nat) (hasCallback : Callback → Bool)
    (labels : List PingLabel), Meets step Legal (newSession count intervalMs hasCallback) labels →
      Along step Released (newSession count intervalMs hasCallback) labels := by
  intro h
  have hlast := (h 1 1000 (fun _ => false) (starting ++ List.replicate 9 (.task false) ++
    [.call .owner .delete, .owner, .task true, .task true, .owner]) (by decide)).last
  exact absurd hlast.sound (by decide)

end Session

end Bl616cl.Ping
