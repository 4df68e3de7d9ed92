import Bl616cl.Ping.Pinger

/-!
# What a ping session reports

The statements of `esp_ping_task` keep track of the reports made, and their number is bounded: so
the session ends, once, with a report for each request.
-/

namespace Bl616cl.Ping

open Bl616cl.Lib

/-! ## Steps of the task -/

namespace Pinger

variable {g : Pinger} {G : UInt32 → Round → Prop} {io : Io} {pc pc' : TaskPc}

theorem numbered_of_reports {w w' : Wire} (h : w.Numbered G) (hreports : w'.reports = w.reports)
    (htarget : w'.target = w.target) : w'.Numbered G := by
  intro k rep hk hcb
  rw [hreports] at hk
  rw [htarget]
  exact h k rep hk hcb

theorem numbered_wireStep (hat : g.wire.At g.session.rounds g.session.Halted G pc)
    (hnum : g.wire.Numbered G) : (g.wireStep io pc).Numbered G := by
  cases pc with
  | report cb i =>
    simp only [wireStep]
    split
    · exact hnum
    · exact Wire.Due.numbered hat hnum
  | args cb i => exact Wire.Due.numbered hat hnum
  | opening | sending i => exact numbered_of_reports hnum rfl rfl
  | _ => exact hnum

/-- The results that have been reported when the loop is left. -/
theorem complete_of_looping {w : Wire} {n i : Nat} {halted : Prop} (h : w.Looping n i)
    (hend : i = n ∨ halted) : w.Complete n halted w.reports := by
  obtain ⟨hopened, hres, hlen, -, hle⟩ := h
  unfold Wire.Complete
  rw [hopened]
  exact ⟨hres, by omega, hend.imp_left fun hi => by omega⟩

theorem at_sending (io : Io) {i : Nat} (h : g.wire.Looping g.session.rounds i)
    (hlt : i < g.session.rounds) (hG : G g.wire.target (g.nextRound io)) :
    (g.wireStep io (.sending i)).Answered g.session.rounds G i (g.outcome io (.sending i)) := by
  obtain ⟨hopened, hres, hlen, hseqno, -⟩ := h
  refine ⟨hopened, hres, hlen, hlt, ?_, g.nextRound io, rfl, rfl, rfl, hG⟩
  simp only [wireStep, nextRound, hseqno]
  omega

/-- **Task**: where a statement of the task leads, what holds there does. -/
theorem at_taskStep (hat : g.wire.At g.session.rounds g.session.Halted G pc)
    (hG : (∃ i, pc = .sending i) → G g.wire.target (g.nextRound io))
    (hpc : (g.session.taskStep (g.outcome io pc) pc).task = some pc') :
    (g.wireStep io pc).At g.session.rounds g.session.Halted G pc' := by
  cases pc with
  | config reads =>
    cases reads with
    | zero =>
      cases hpc
      exact hat.2
    | succ reads =>
      cases hpc
      exact ⟨Nat.le_of_succ_le hat.1, hat.2⟩
  | opening =>
    obtain ⟨hseqno, hreports⟩ := hat
    cases hsocket : io.socket with
    | true =>
      rw [show g.outcome io .opening = true from hsocket] at hpc
      cases hpc
      refine ⟨by simp [wireStep, hsocket], ?_, by simp [wireStep, hreports], hseqno, Nat.zero_le _⟩
      simp [wireStep, hreports]
    | false =>
      rw [show g.outcome io .opening = false from hsocket] at hpc
      cases hpc
      exact ⟨by simp [wireStep, hsocket], hreports⟩
  | testStop i =>
    have hle : i ≤ g.session.rounds := hat.2.2.2.2
    simp only [Session.taskStep] at hpc
    split at hpc
    · next hlt =>
      split at hpc
      · next hstop =>
        cases hpc
        exact complete_of_looping hat (Or.inr (Or.inl hstop))
      · cases hpc
        exact ⟨hat, hlt⟩
    · next hge =>
      cases hpc
      exact complete_of_looping hat (Or.inl (by omega))
  | testDeleted i =>
    simp only [Session.taskStep] at hpc
    split at hpc
    · next hdel =>
      cases hpc
      exact complete_of_looping hat.1 (Or.inr (Or.inr hdel))
    · split at hpc <;> cases hpc <;> exact hat
  | delaying i =>
    cases hpc
    exact hat
  | retestStop i =>
    simp only [Session.taskStep] at hpc
    split at hpc
    · next hstop =>
      cases hpc
      exact complete_of_looping hat.1 (Or.inr (Or.inl hstop))
    · cases hpc
      exact hat
  | retestDeleted i =>
    simp only [Session.taskStep] at hpc
    split at hpc
    · next hdel =>
      cases hpc
      exact complete_of_looping hat.1 (Or.inr (Or.inr hdel))
    · cases hpc
      exact hat
  | sending i =>
    have hsent := at_sending io hat.1 hat.2 (hG ⟨i, rfl⟩)
    simp only [Session.taskStep] at hpc
    split at hpc
    · next hok =>
      cases hpc
      rwa [hok] at hsent
    · next hok =>
      rw [Bool.not_eq_true] at hok
      cases hpc
      rwa [hok] at hsent
  | timing i =>
    cases hpc
    exact hat
  | report cb i =>
    simp only [Session.taskStep] at hpc
    simp only [wireStep]
    split at hpc
    · next hcb =>
      cases hpc
      rw [if_pos hcb]
      exact hat
    · next hcb =>
      cases hpc
      rw [if_neg hcb]
      exact (Wire.Due.tell hat).at_after
  | args cb i =>
    cases hpc
    exact Wire.Due.tell hat
  | inside cb i api =>
    simp only [Session.taskStep] at hpc
    split at hpc
    · cases hpc
      exact Wire.Made.at_after hat
    · cases hpc
      exact hat
  | lastTest =>
    simp only [Session.taskStep] at hpc
    split at hpc <;> cases hpc <;> exact hat
  | freeing =>
    cases hpc
    exact hat
  | exiting => cases hpc

/-! ## The invariant -/

structure Inv (G : UInt32 → Round → Prop) (g : Pinger) : Prop where
  numbered : g.wire.Numbered G
  place : ∀ pc ∈ g.session.task, g.wire.At g.session.rounds g.session.Halted G pc
  fresh : g.session.started = false →
    g.session.task = none ∧ g.wire.seqno = 0 ∧ g.wire.reports = []
  ended : g.session.started = true → g.session.task = none →
    g.wire.Ended g.session.rounds g.session.Halted
  /-- The owner starts the session, and no callback does. -/
  starter : g.session.owner.starts = true → g.session.started = false
  calm : ∀ pc ∈ g.session.task, pc.calm = true

theorem inv_start (target : UInt32) (count intervalMs : Nat) (hasCallback : Callback → Bool) :
    Inv G (start target count intervalMs hasCallback) := by
  refine ⟨?_, ?_, fun _ => ⟨rfl, rfl, rfl⟩, ?_, ?_, ?_⟩ <;>
    simp [start, Session.newSession, Wire.Numbered, Api.starts]

theorem inv_same {s : Session} {w : Wire} (h : Inv G g) (hcount : s.count = g.session.count)
    (hstarted : s.started = g.session.started) (htask : s.task = g.session.task)
    (hhalted : g.session.Halted → s.Halted) (howner : s.owner.starts = true → s.started = false)
    (hw : ∃ queue, w = { g.wire with queue := queue }) : Inv G ⟨s, w⟩ := by
  obtain ⟨queue, rfl⟩ := hw
  have hrounds : s.rounds = g.session.rounds := by simp only [Session.rounds_eq, hcount]
  refine ⟨numbered_of_reports h.numbered rfl rfl, ?_, ?_, ?_, howner, ?_⟩
  · intro pc hpc
    rw [htask] at hpc
    rw [hrounds]
    have hat := (h.place pc hpc).mono hhalted
    cases pc <;> exact hat
  · simp only [hstarted, htask]
    exact h.fresh
  · intro hs hnone
    rw [hstarted] at hs
    rw [htask] at hnone
    rw [hrounds]
    exact (h.ended hs hnone).mono hhalted
  · simp only [htask]
    exact h.calm

theorem inv_move {s : Session} {w : Wire} (h : Inv G g) (hsame : g.session.Same s)
    (hstarted : g.session.started = true) (htask : s.task = some pc') (hnum : w.Numbered G)
    (hat : w.At g.session.rounds g.session.Halted G pc')
    (hcalm : pc'.calm = true) : Inv G ⟨s, w⟩ := by
  have hrounds : s.rounds = g.session.rounds := by simp only [Session.rounds_eq, hsame.count]
  refine ⟨hnum, ?_, ?_, ?_, ?_, ?_⟩
  · intro pc hpc
    rw [htask] at hpc
    obtain rfl := Option.some.inj hpc
    rw [hrounds]
    exact hat.mono hsame.halted
  · intro hs
    rw [hsame.started, hstarted] at hs
    cases hs
  · intro _ hnone
    rw [htask] at hnone
    cases hnone
  · intro hs
    rw [hsame.owner] at hs
    rw [hsame.started]
    exact h.starter hs
  · intro pc hpc
    rw [htask] at hpc
    exact Option.some.inj hpc ▸ hcalm

theorem started_of_task (h : Inv G g) (htask : g.session.task = some pc) :
    g.session.started = true := by
  by_contra hs
  have hnone := (h.fresh (Bool.not_eq_true _ ▸ hs)).1
  rw [htask] at hnone
  cases hnone

theorem entry_starts {c : PingCall} (h : c.entry.starts = true) : c = .start true := by
  cases c with
  | start ok =>
    cases ok with
    | true => rfl
    | false => cases h
  | stop | delete | getProfile => cases h

/-- The task goes on until it leaves, and no callback starts a session. -/
theorem taskStep_next (s : Session) (ok : Bool) (h : pc.calm = true) :
    (∃ pc', (s.taskStep ok pc).task = some pc' ∧ pc'.calm = true) ∨ pc = .exiting := by
  cases pc with
  | exiting => exact Or.inr rfl
  | config reads => cases reads <;> exact Or.inl ⟨_, rfl, rfl⟩
  | delaying i | timing i | freeing | args cb i => exact Or.inl ⟨_, rfl, rfl⟩
  | testStop i =>
    simp only [Session.taskStep]
    split
    · split <;> exact Or.inl ⟨_, rfl, rfl⟩
    · exact Or.inl ⟨_, rfl, rfl⟩
  | testDeleted i =>
    simp only [Session.taskStep]
    split
    · exact Or.inl ⟨_, rfl, rfl⟩
    · split <;> exact Or.inl ⟨_, rfl, rfl⟩
  | opening | retestStop i | retestDeleted i | sending i | lastTest =>
    simp only [Session.taskStep]
    split <;> exact Or.inl ⟨_, rfl, rfl⟩
  | report cb i =>
    simp only [Session.taskStep]
    split
    · exact Or.inl ⟨_, rfl, rfl⟩
    · cases cb <;> exact Or.inl ⟨_, rfl, rfl⟩
  | inside cb i api =>
    simp only [Session.taskStep]
    split
    · cases cb <;> exact Or.inl ⟨_, rfl, rfl⟩
    · have hstarts := (Session.same_apiStep s (TaskPc.starts_eq h)).2.2
      exact Or.inl ⟨_, rfl, by simp [TaskPc.calm, hstarts]⟩

theorem step_task (htask : g.session.task = some pc) : g.step (.task io) =
    ⟨g.session.taskStep (g.outcome io pc) pc, g.wireStep io pc⟩ := by
  simp only [step, Session.step, htask]

theorem sends_sending (htask : g.session.task = some pc) (hc : g.Sends G (.task io)) :
    (∃ i, pc = .sending i) → G g.wire.target (g.nextRound io) := by
  rintro ⟨i, rfl⟩
  simpa only [Sends, htask] using hc

theorem inv_task (h : Inv G g) (hc : g.Sends G (.task io)) : Inv G (g.step (.task io)) := by
  cases htask : g.session.task with
  | none =>
    simp only [step, htask]
    exact h
  | some pc =>
    rw [step_task htask]
    have hcalm := h.calm pc htask
    have hat := h.place pc htask
    have hnum : (g.wireStep io pc).Numbered G := numbered_wireStep hat h.numbered
    have hsame := Session.same_taskStep g.session (g.outcome io pc) hcalm
    have hstarted := started_of_task h htask
    rcases taskStep_next g.session (g.outcome io pc) hcalm with
      ⟨pc', hnext, hcalm'⟩ | rfl
    · have hplace := at_taskStep hat (sends_sending htask hc) hnext
      exact inv_move h hsame hstarted hnext hnum hplace hcalm'
    · refine ⟨hnum, by simp [Session.taskStep], fun hs => ?_, fun _ _ => hat, h.starter,
        by simp [Session.taskStep]⟩
      rw [hsame.started, hstarted] at hs
      cases hs

theorem inv_call {p : Party} {c : PingCall} (h : Inv G g) (hc : g.Once (.call p c)) :
    Inv G (g.step (.call p c)) := by
  cases p with
  | owner =>
    simp only [step, Session.step]
    split
    · refine inv_same h rfl rfl rfl id (fun hs => ?_) ⟨_, rfl⟩
      exact hc (entry_starts hs)
    · exact h
  | callback =>
    simp only [step, Session.step]
    split
    · next cb i htask =>
      have hstarted := started_of_task h htask
      have hat : g.wire.At g.session.rounds g.session.Halted G (.inside cb i .idle) :=
        h.place _ htask
      refine inv_move h ⟨rfl, rfl, rfl, id⟩ hstarted rfl h.numbered hat ?_
      by_contra hs
      have hfalse := hc (entry_starts (by simpa [TaskPc.calm] using hs))
      rw [hstarted] at hfalse
      cases hfalse
    · exact h

theorem inv_owner (h : Inv G g) : Inv G (g.step .owner) := by
  simp only [step, Session.step]
  cases howner : g.session.owner with
  | spawning =>
    obtain ⟨-, hseqno, hreports⟩ := h.fresh (h.starter (by rw [howner]; rfl))
    refine ⟨h.numbered, ?_, ?_, ?_, ?_, ?_⟩
    · rintro pc ⟨rfl⟩
      exact ⟨Nat.le_refl 5, hseqno, hreports⟩
    · intro hs
      cases hs
    · intro _ hnone
      cases hnone
    · intro hs
      cases hs
    · rintro pc ⟨rfl⟩
      rfl
  | starting ok =>
    have hsame : ok = true → g.session.started = false := by
      rintro rfl
      exact h.starter (by rw [howner]; rfl)
    cases ok with
    | true => exact inv_same h rfl rfl rfl id (fun _ => hsame rfl) ⟨_, rfl⟩
    | false => exact inv_same h rfl rfl rfl id (fun hs => absurd hs Bool.false_ne_true) ⟨_, rfl⟩
  | idle | stopping | marking | unwinding | profiling =>
    have hnot : g.session.owner.starts = false := by rw [howner]; rfl
    obtain ⟨hsame, htask, hstarts⟩ := Session.same_apiStep g.session hnot
    rw [howner] at hsame htask hstarts
    refine inv_same h hsame.count hsame.started htask hsame.halted (fun hs => ?_) ⟨_, rfl⟩
    exact absurd (hstarts.symm.trans hs) Bool.false_ne_true

/-- **Step**: the invariant holds on, if what is sent meets the condition. -/
theorem inv_step (g : Pinger) (a : PingerLabel) (h : Inv G g) (hc : g.Once a ∧ g.Sends G a) :
    Inv G (g.step a) := by
  cases a with
  | call p c => exact inv_call h hc.1
  | owner => exact inv_owner h
  | task io => exact inv_task h hc.2
  | arrive p => exact inv_same h rfl rfl rfl id h.starter ⟨_, rfl⟩

/-! ## The end of the session -/

end Pinger

/-- A call that is made in a callback. -/
def PingerLabel.inCallback : PingerLabel → Bool
  | call .callback _ => true
  | _ => false

def PingerLabel.isTask : PingerLabel → Bool
  | task _ => true
  | _ => false

namespace Pinger

variable {g : Pinger} {G : UInt32 → Round → Prop} {io : Io} {pc pc' : TaskPc}
  {labels : List PingerLabel}

theorem starts_eq (h : Inv G g) (hs : g.session.started = true) :
    g.session.owner.starts = false := by
  by_contra hstart
  have hfalse := h.starter (by simpa using hstart)
  rw [hs] at hfalse
  cases hfalse

def left (g : Pinger) : Nat := (g.session.task.map (TaskPc.left g.session.rounds)).getD 0

theorem left_eq (htask : g.session.task = some pc) : g.left = pc.left g.session.rounds := by
  simp [left, htask]

theorem left_of_same {g' : Pinger} (hcount : g'.session.count = g.session.count)
    (htask : g'.session.task = g.session.task) : g'.left = g.left := by
  have hrounds : g'.session.rounds = g.session.rounds := by simp only [Session.rounds_eq, hcount]
  simp only [left, htask, hrounds]

/-- **Progress**: a statement of the task brings it nearer to its end, and a call in a callback has
two statements at most. -/
theorem left_step (h : Inv G g) (a : PingerLabel) (htask : g.session.task = some pc) :
    (g.step a).left + (if a.isTask then 1 else 0) ≤
      g.left + 2 * (if a.inCallback then 1 else 0) := by
  cases a with
  | arrive p => exact Nat.le_refl _
  | owner =>
    simp only [PingerLabel.isTask, PingerLabel.inCallback, Bool.false_eq_true, if_false]
    obtain ⟨hsame, htask', -⟩ :=
      Session.same_apiStep g.session (starts_eq h (started_of_task h htask))
    exact Nat.le_of_eq (left_of_same hsame.count htask')
  | call p c =>
    cases p with
    | owner =>
      simp only [PingerLabel.isTask, PingerLabel.inCallback, Bool.false_eq_true, if_false]
      refine Nat.le_of_eq (left_of_same ?_ ?_) <;> simp only [step, Session.step] <;> split <;> rfl
    | callback =>
      simp only [PingerLabel.isTask, PingerLabel.inCallback, Bool.false_eq_true, if_false, if_true]
      simp only [step, Session.step]
      split
      · next cb i htask' =>
        have hentry := Api.left_entry c
        have hleft : left ⟨(g.session.begins .callback c).goto (.inside cb i c.entry), g.wire⟩ =
            cb.left g.session.rounds i - 2 + c.entry.left := rfl
        rw [hleft, left_eq htask', TaskPc.left_inside]
        omega
      · exact Nat.le_add_right _ 2
  | task io =>
    simp only [PingerLabel.isTask, PingerLabel.inCallback, Bool.false_eq_true, if_false, if_true]
    have hcalm := h.calm pc htask
    have hat := h.place pc htask
    rw [step_task htask, left_eq htask]
    rcases taskStep_next g.session (g.outcome io pc) hcalm with
      ⟨pc', hnext, -⟩ | rfl
    · have hsame := Session.same_taskStep g.session (g.outcome io pc) hcalm
      have hrounds : (g.session.taskStep (g.outcome io pc) pc).rounds = g.session.rounds := by
        simp only [Session.rounds_eq, hsame.count]
      rw [left_eq hnext, hrounds]
      exact hat.left_taskStep hnext
    · exact Nat.le_refl 1

theorem started_step (h : Inv G g) (a : PingerLabel) (hs : g.session.started = true) :
    (g.step a).session.started = true := by
  cases a with
  | arrive p => exact hs
  | owner => exact (Session.same_apiStep g.session (starts_eq h hs)).1.started.trans hs
  | call p c =>
    cases p <;> simp only [step, Session.step] <;> split <;> exact hs
  | task io =>
    cases htask : g.session.task with
    | none =>
      simp only [step, htask]
      exact hs
    | some pc =>
      rw [step_task htask]
      exact (Session.same_taskStep _ _ (h.calm pc htask)).started.trans hs

theorem gone_step (h : Inv G g) (a : PingerLabel) (hs : g.session.started = true)
    (hnone : g.session.task = none) : (g.step a).session.task = none := by
  cases a with
  | arrive p => exact hnone
  | task io =>
    simp only [step, hnone]
  | owner => exact (Session.same_apiStep g.session (starts_eq h hs)).2.1.trans hnone
  | call p c =>
    cases p with
    | owner =>
      simp only [step, Session.step]
      split <;> exact hnone
    | callback =>
      simp only [step, Session.step, hnone]

theorem gone_runs (h : Inv G g) (hs : g.session.started = true) (hnone : g.session.task = none)
    (hc : Meets step (fun g a => g.Once a ∧ g.Sends G a) g labels) :
    (runs step g labels).session.task = none := by
  induction labels generalizing g with
  | nil => exact hnone
  | cons a labels ih =>
    exact ih (inv_step g a h hc.1) (started_step h a hs) (gone_step h a hs hnone) hc.2

/-- **Termination**: after as many statements as are left, the task has gone. -/
theorem gone_of_steps (h : Inv G g) (hs : g.session.started = true)
    (hc : Meets step (fun g a => g.Once a ∧ g.Sends G a) g labels)
    (hsteps : g.left + 2 * labels.countP PingerLabel.inCallback ≤
      labels.countP PingerLabel.isTask) : (runs step g labels).session.task = none := by
  induction labels generalizing g with
  | nil =>
    cases htask : g.session.task with
    | none => exact htask
    | some pc =>
      have hpos := (h.place pc htask).left_pos
      rw [left_eq htask, List.countP_nil, List.countP_nil] at hsteps
      omega
  | cons a labels ih =>
    cases htask : g.session.task with
    | none => exact gone_runs h hs htask hc
    | some pc =>
      have hleft := left_step h a htask
      rw [List.countP_cons, List.countP_cons] at hsteps
      exact ih (inv_step g a h hc.1) (started_step h a hs) hc.2 (by omega)

theorem count_apiStep (s : Session) (api : Api) : (s.apiStep api).1.count = s.count := by
  cases api with
  | starting ok => cases ok <;> rfl
  | _ => rfl

theorem count_step (h : Inv G g) (a : PingerLabel) :
    (g.step a).session.count = g.session.count := by
  cases a with
  | arrive p => rfl
  | owner => exact count_apiStep g.session g.session.owner
  | call p c => cases p <;> simp only [step, Session.step] <;> split <;> rfl
  | task io =>
    cases htask : g.session.task with
    | none => simp only [step, htask]
    | some pc =>
      rw [step_task htask]
      exact (Session.same_taskStep _ _ (h.calm pc htask)).count

theorem inv_runs (h : Inv G g) (hc : Meets step (fun g a => g.Once a ∧ g.Sends G a) g labels) :
    Inv G (runs step g labels) ∧ (runs step g labels).session.count = g.session.count := by
  induction labels generalizing g with
  | nil => exact ⟨h, rfl⟩
  | cons a labels ih =>
    obtain ⟨hinv, hcount⟩ := ih (inv_step g a h hc.1) hc.2
    exact ⟨hinv, hcount.trans (count_step h a)⟩

/-! ## Replies with the right number -/

end Pinger

/-- Where the header length of what is received points past it, the memory there does not happen to
hold a reply to the request. -/
def Round.Contained (target : UInt32) (r : Round) : Prop :=
  r.sent = true → ∀ p ∈ r.packets.head?, headersSize ≤ min p.bytes.length replySize →
    p.source = target → Answers (p.received r.stack).mem r.seqno →
    icmpOffset p.bytes + 8 ≤ min p.bytes.length replySize

instance (target : UInt32) (r : Round) : Decidable (r.Contained target) :=
  inferInstanceAs (Decidable (_ → _))

theorem Round.carries_of_success {target : UInt32} {r : Round} (h : r.success target = true)
    (hc : r.Contained target) : ∃ p, r.packets.head? = some p ∧ p.Carries target r.seqno := by
  obtain ⟨hsent, hany⟩ := Bool.and_eq_true_iff.mp h
  cases hp : r.packets.head? with
  | none =>
    rw [hp] at hany
    cases hany
  | some p =>
    rw [hp] at hany
    obtain ⟨hlen, hsource, hanswers⟩ := Reply.echoed_iff.mp hany
    have hin := hc hsent p hp hlen hsource hanswers
    exact ⟨p, rfl, hsource, hin, (answers_received r.stack hin).mp hanswers⟩

namespace Pinger

variable {g : Pinger}

theorem reported_of_inv (h : Inv Round.Contained g) : Reported g := by
  have hrounds : g.session.rounds = max g.session.count 1 := Session.rounds_eq
  refine ⟨?_, ?_, ?_⟩
  · rw [← hrounds]
    have hpos : 0 < g.session.rounds := by omega
    cases htask : g.session.task with
    | some pc => exact (h.place pc htask).ordered hpos
    | none =>
      cases hs : g.session.started with
      | true => exact (h.ended hs htask).ordered hpos
      | false => exact Wire.ordered_nil (h.fresh hs).2.2
  · intro k rep hk hcb
    obtain ⟨r, hround, hseqno, hsuccess, hG⟩ := h.numbered k rep hk (by rw [hcb]; rfl)
    obtain ⟨p, hp, hcarries⟩ := Round.carries_of_success (hsuccess.mp hcb) hG
    exact ⟨r, p, hround, hseqno, hp, hcarries⟩
  · rw [← hrounds]
    exact h.ended

/-- **Ping**: in every run in which no memory past a reply is taken for one, the reports are in
order, each success is for a reply with the number of the request just sent, and they are complete
when the task has gone; which it has after 10 statements a round and 16 more, those of the calls in
callbacks apart. -/
theorem reported_of_contained (target : UInt32) (count intervalMs : Nat)
    (hasCallback : Callback → Bool) (labels : List PingerLabel)
    (h : Meets step (fun g a => g.Once a ∧ g.Sends Round.Contained a)
      (start target count intervalMs hasCallback) labels) :
    Along step Reported (start target count intervalMs hasCallback) labels ∧
      ∀ before after, labels = before ++ after →
        (runs step (start target count intervalMs hasCallback) before).session.started = true →
        10 * max count 1 + 16 + 2 * after.countP PingerLabel.inCallback ≤
          after.countP PingerLabel.isTask →
        (runs step (start target count intervalMs hasCallback) labels).session.task = none := by
  refine ⟨(along_of_meets inv_step (inv_start ..) h).mono fun _ => reported_of_inv, ?_⟩
  rintro before after rfl hs hsteps
  obtain ⟨hbefore, hafter⟩ := meets_append.mp h
  obtain ⟨hinv, hcount⟩ := inv_runs (inv_start ..) hbefore
  rw [runs, List.foldl_append]
  refine gone_of_steps hinv hs hafter ?_
  have hrounds : (runs step (start target count intervalMs hasCallback) before).session.rounds =
      max count 1 := by
    rw [Session.rounds_eq, hcount]
    rfl
  cases htask : (runs step (start target count intervalMs hasCallback) before).session.task with
  | none =>
    simp only [left, htask, Option.map_none, Option.getD_none]
    omega
  | some pc =>
    have hle := (hinv.place pc htask).left_le
    rw [left_eq htask]
    rw [hrounds] at hle ⊢
    omega

/-! ## Runs with a host -/

/-- A reply of 60 bytes, with the first of its data. -/
def replyTo (seqno : UInt8) (data : List UInt8) : Packet :=
  ⟨0x45 :: List.replicate 19 0 ++ [0, 0, 0, 0, 0xAF, 0xAF, 0, seqno] ++ data ++
    List.replicate (32 - data.length) 0, 7⟩

def io (arrivals : List Packet) (stack : List UInt8) : Io := ⟨true, 40, arrivals, stack⟩

def starting : List PingerLabel := [.call .owner (.start true), .owner, .owner]

/-- Two requests and their replies, and a deletion in `on_ping_end`. -/
def answered : List PingerLabel :=
  starting ++ List.replicate 12 (.task (io [replyTo 1 []] [])) ++
    List.replicate 9 (.task (io [replyTo 2 []] [])) ++ [.call .callback .delete] ++
    List.replicate 6 (.task (io [] []))

theorem reported_answered :
    Along step Reported (start 7 2 0 fun cb => cb == .finish) answered ∧
      ∀ before after, answered = before ++ after →
        (runs step (start 7 2 0 fun cb => cb == .finish) before).session.started = true →
        10 * max 2 1 + 16 + 2 * after.countP PingerLabel.inCallback ≤
          after.countP PingerLabel.isTask →
        (runs step (start 7 2 0 fun cb => cb == .finish) answered).session.task = none :=
  reported_of_contained 7 2 0 _ answered (by decide)

/-- The data of the first reply, still on the stack, complete a second one of 28 bytes. -/
theorem not_reported_stale : ¬ ∀ (target : UInt32) (count intervalMs : Nat)
    (hasCallback : Callback → Bool) (labels : List PingerLabel),
    Meets step Once (start target count intervalMs hasCallback) labels →
      Along step Reported (start target count intervalMs hasCallback) labels := by
  intro h
  let first := replyTo 1 [0xAF, 0xAF, 0, 2]
  let second : Packet := ⟨0x46 :: List.replicate 27 0, 7⟩
  have hlast := (h 7 2 0 (fun _ => false) (starting ++ List.replicate 12 (.task (io [first] [])) ++
    List.replicate 5 (.task (io [second] (first.bytes.drop 28)))) (by decide)).last
  obtain ⟨r, p, hround, -, hp, hcarries⟩ := hlast.carried 1
    ⟨.success, some ⟨2, true, [second], first.bytes.drop 28⟩⟩ (by decide) rfl
  obtain rfl := Option.some.inj hround
  obtain rfl := Option.some.inj hp
  exact absurd hcarries (by decide)

end Pinger

end Bl616cl.Ping
