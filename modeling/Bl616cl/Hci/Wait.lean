import Mathlib.Data.Nat.Find
import Bl616cl.Hci.Transport

/-!
# Waiting for the controller

`HCIVirtualTransportClass::wait` compares the tick count with a deadline. The tick count has 32
bits and so has the deadline, which lies before the start when the sum wraps around; and a count
that has gone by the deadline and wrapped around is before it again. `honours_iff` says for which
starts neither can happen.
-/

namespace Bl616cl.Hci

/-- `configTICK_RATE_HZ`. -/
def configTickRateHz : Nat := 1000

/-- `pdMS_TO_TICKS`, in `TickType_t` arithmetic. -/
def pdMsToTicks (ms : Nat) : Nat := ms * configTickRateHz % 2 ^ 32 / 1000

/-- A timeout whose conversion does not overflow. -/
structure Timeout where
  ms : Nat
  small : ms * configTickRateHz < 2 ^ 32

/-- The ticks that are asked for. -/
def Timeout.ticks (t : Timeout) : Nat := t.ms * configTickRateHz / 1000

theorem Timeout.pdMsToTicks_eq (t : Timeout) : pdMsToTicks t.ms = t.ticks := by
  unfold pdMsToTicks ticks
  rw [Nat.mod_eq_of_lt t.small]

theorem Timeout.ticks_lt (t : Timeout) : t.ticks < 2 ^ 32 :=
  Nat.lt_of_le_of_lt (Nat.div_le_self _ _) t.small

/-- What goes on around a call: the ticks that have passed, and the `c2h` ring, each time that the
loop makes its test. One `vTaskDelay` takes `longest` ticks at most. -/
structure Schedule (longest : Nat) where
  time : Nat → Nat
  c2h : Nat → ByteRing
  time_zero : time 0 = 0
  advances : ∀ k, time k < time (k + 1)
  advances_le : ∀ k, time (k + 1) ≤ time k + longest

namespace Schedule

variable {longest : Nat} (w : Schedule longest) (start : Nat) (timeout : Timeout)

/-- `xTaskGetTickCount`. -/
def tickCount (k : Nat) : Nat := (start + w.time k) % 2 ^ 32

def deadline : Nat := (w.tickCount start 0 + pdMsToTicks timeout.ms) % 2 ^ 32

/-- The test of the loop. -/
def goesOn (k : Nat) : Bool :=
  (w.c2h k).count == 0 && decide (w.tickCount start k < w.deadline start timeout)

/-- The loop, cut off after the given number of tests: at which it ends. -/
def waitFrom : Nat → Nat → Option Nat
  | 0, _ => none
  | fuel + 1, k => if w.goesOn start timeout k then waitFrom fuel (k + 1) else some k

def wait (fuel : Nat) : Option Nat := w.waitFrom start timeout fuel 0

end Schedule

/-- From this start the timeout is honoured, whatever the scheduler and the controller do: without
data not before its time, and in bounded time behind it. -/
structure Honours (longest start : Nat) (timeout : Timeout) : Prop where
  notEarly : ∀ (w : Schedule longest) (fuel k : Nat), w.wait start timeout fuel = some k →
    (w.c2h k).count = 0 → timeout.ticks ≤ w.time k
  returns : ∃ bound, ∀ w : Schedule longest, ∃ fuel k, w.wait start timeout fuel = some k ∧
    w.time k ≤ timeout.ticks + bound

namespace Schedule

variable {longest start fuel i j k : Nat} {timeout : Timeout} {w : Schedule longest}

/-! ## The loop -/

theorem waitFrom_some (h : w.waitFrom start timeout fuel k = some j) :
    k ≤ j ∧ w.goesOn start timeout j = false ∧
      ∀ i, k ≤ i → i < j → w.goesOn start timeout i = true := by
  induction fuel generalizing k with
  | zero => cases h
  | succ fuel ih =>
    rw [waitFrom] at h
    split at h
    · next hgo =>
      obtain ⟨hle, hend, hall⟩ := ih h
      refine ⟨by omega, hend, fun i hki hij => ?_⟩
      rcases Nat.eq_or_lt_of_le hki with rfl | hlt
      · exact hgo
      · exact hall i hlt hij
    · next hstop =>
      obtain rfl := Option.some.inj h
      exact ⟨Nat.le_refl k, by simpa using hstop, fun i hki hik => by omega⟩

theorem waitFrom_of_stop (hend : w.goesOn start timeout (k + i) = false) :
    ∃ j, w.waitFrom start timeout (i + 1) k = some j ∧ j ≤ k + i := by
  induction i generalizing k with
  | zero =>
    rw [Nat.add_zero] at hend
    exact ⟨k, by simp [waitFrom, hend], by omega⟩
  | succ i ih =>
    cases hgo : w.goesOn start timeout k with
    | false => exact ⟨k, by simp [waitFrom, hgo], by omega⟩
    | true =>
      rw [show k + (i + 1) = k + 1 + i by omega] at hend
      obtain ⟨j, hj, hle⟩ := ih hend
      refine ⟨j, ?_, by omega⟩
      rw [waitFrom, if_pos hgo]
      exact hj

theorem waitFrom_of_goesOn (h : ∀ k, w.goesOn start timeout k = true) :
    w.waitFrom start timeout fuel k = none := by
  induction fuel generalizing k with
  | zero => rfl
  | succ fuel ih =>
    rw [waitFrom, if_pos (h k)]
    exact ih

theorem time_mono (h : i ≤ j) : w.time i ≤ w.time j := by
  induction j with
  | zero => rw [Nat.le_zero.mp h]
  | succ j ih =>
    rcases Nat.eq_or_lt_of_le h with rfl | hlt
    · exact Nat.le_refl _
    · exact Nat.le_trans (ih (Nat.le_of_lt_succ hlt)) (Nat.le_of_lt (w.advances j))

theorem le_time (w : Schedule longest) (k : Nat) : k ≤ w.time k := by
  induction k with
  | zero => exact Nat.zero_le _
  | succ k ih =>
    have hlt := w.advances k
    omega

theorem deadline_eq (w : Schedule longest) (hstart : start < 2 ^ 32) :
    w.deadline start timeout = (start + timeout.ticks) % 2 ^ 32 := by
  unfold deadline tickCount
  rw [w.time_zero, timeout.pdMsToTicks_eq, Nat.add_zero, Nat.mod_eq_of_lt hstart]

theorem goesOn_iff (hstart : start < 2 ^ 32) : w.goesOn start timeout k = true ↔
    (w.c2h k).count = 0 ∧ (start + w.time k) % 2 ^ 32 < (start + timeout.ticks) % 2 ^ 32 := by
  unfold goesOn
  rw [w.deadline_eq hstart, Bool.and_eq_true, beq_iff_eq, decide_eq_true_iff]
  rfl

/-! ## Far enough from the wrap-around -/

/-- The first test at which the ticks asked for have passed. -/
theorem exists_due (w : Schedule longest) (hlongest : 0 < longest) (ticks : Nat) :
    ∃ k, ticks ≤ w.time k ∧ (∀ i < k, w.time i < ticks) ∧ w.time k < ticks + longest := by
  have hsome : ∃ k, ticks ≤ w.time k := ⟨ticks, w.le_time ticks⟩
  refine ⟨Nat.find hsome, Nat.find_spec hsome,
    fun i hi => Nat.not_le.mp (Nat.find_min hsome hi), ?_⟩
  cases hfind : Nat.find hsome with
  | zero =>
    rw [w.time_zero]
    exact Nat.add_pos_right _ hlongest
  | succ k =>
    have hbefore := Nat.find_min hsome (m := k) (by omega)
    have hstep := w.advances_le k
    omega

end Schedule

open Schedule

variable {longest start : Nat} {timeout : Timeout}

theorem honours_zero (hstart : start < 2 ^ 32) (h : timeout.ticks = 0) :
    Honours longest start timeout := by
  refine ⟨fun w fuel k _ _ => by omega, 0, fun w => ⟨1, 0, ?_, by rw [w.time_zero]; omega⟩⟩
  have hstop : ¬ w.goesOn start timeout 0 = true := by
    rw [goesOn_iff hstart, w.time_zero, h]
    omega
  rw [wait, waitFrom, if_neg hstop]

theorem honours_of_far (hlongest : 0 < longest) (hstart : start < 2 ^ 32)
    (h : start + timeout.ticks + longest ≤ 2 ^ 32) : Honours longest start timeout := by
  have hdeadline : (start + timeout.ticks) % 2 ^ 32 = start + timeout.ticks :=
    Nat.mod_eq_of_lt (by omega)
  -- the loop ends at the first test that is late enough, and no test before it is
  have hdue : ∀ w : Schedule longest, ∃ k, timeout.ticks ≤ w.time k ∧
      (∀ i < k, w.time i < timeout.ticks) ∧ w.time k < timeout.ticks + longest ∧
        w.goesOn start timeout k = false := by
    intro w
    obtain ⟨k, hle, hbefore, hlt⟩ := w.exists_due hlongest timeout.ticks
    refine ⟨k, hle, hbefore, hlt, ?_⟩
    rw [← Bool.not_eq_true, goesOn_iff hstart, hdeadline, Nat.mod_eq_of_lt (by omega)]
    omega
  refine ⟨fun w fuel k hwait hnone => ?_, longest, fun w => ?_⟩
  · obtain ⟨j, hle, hbefore, -, hstop⟩ := hdue w
    obtain ⟨-, hend, hall⟩ := waitFrom_some hwait
    rcases Nat.lt_or_ge k j with hlt | hge
    · have htime := hbefore k hlt
      rw [← Bool.not_eq_true, goesOn_iff hstart, hdeadline, Nat.mod_eq_of_lt (by omega)] at hend
      exact absurd ⟨hnone, by omega⟩ hend
    · exact Nat.le_trans hle (w.time_mono hge)
  · obtain ⟨k, -, -, hlt, hstop⟩ := hdue w
    rw [← Nat.zero_add k] at hstop
    obtain ⟨j, hwait, hj⟩ := waitFrom_of_stop hstop
    refine ⟨k + 1, j, hwait, ?_⟩
    have htime := w.time_mono (show j ≤ k by omega)
    omega

/-! ## Too near to it -/

/-- Time passes by single ticks, and no data comes. -/
def idleTicks (longest : Nat) (h : 0 < longest) : Schedule longest where
  time k := k
  c2h _ := ByteRing.empty
  time_zero := rfl
  advances k := Nat.lt_succ_self k
  advances_le k := Nat.add_le_add_left h k

theorem not_honours_of_wrap (hlongest : 0 < longest) (hstart : start < 2 ^ 32)
    (hpos : 0 < timeout.ticks) (h : 2 ^ 32 ≤ start + timeout.ticks) :
    ¬ Honours longest start timeout := by
  intro hh
  have hsmall := timeout.ticks_lt
  have hstop : (idleTicks longest hlongest).goesOn start timeout 0 = false := by
    rw [← Bool.not_eq_true, goesOn_iff hstart]
    show ¬ (_ ∧ (start + 0) % 2 ^ 32 < _)
    omega
  have hearly := hh.notEarly (idleTicks longest hlongest) 1 0
    (by rw [wait, waitFrom, hstop]; rfl) (show ByteRing.empty.count = 0 by decide)
  have hzero : (idleTicks longest hlongest).time 0 = 0 := rfl
  omega

/-- The ticks since the last wrap-around stay below `deadline`: one tick before it, the next
`vTaskDelay` takes the count to the wrap-around. -/
def skipping (start deadline : Nat) : Nat → Nat
  | 0 => start
  | k + 1 =>
    if skipping start deadline k % 2 ^ 32 + 1 < deadline then skipping start deadline k + 1
    else skipping start deadline k + (2 ^ 32 - deadline + 1)

theorem skipping_mod {deadline : Nat} (hstart : start < deadline) (hlt : deadline < 2 ^ 32)
    (k : Nat) : skipping start deadline k % 2 ^ 32 < deadline := by
  induction k with
  | zero =>
    rw [skipping, Nat.mod_eq_of_lt (by omega)]
    exact hstart
  | succ k ih =>
    rw [skipping]
    split <;> omega

theorem skipping_advances (start deadline k : Nat) :
    skipping start deadline k < skipping start deadline (k + 1) ∧
      skipping start deadline (k + 1) ≤ skipping start deadline k + (2 ^ 32 - deadline + 1) := by
  rw [skipping]
  split <;> omega

theorem start_le_skipping (start deadline k : Nat) : start ≤ skipping start deadline k := by
  induction k with
  | zero => exact Nat.le_refl _
  | succ k ih => exact Nat.le_trans ih (Nat.le_of_lt (skipping_advances start deadline k).1)

/-- The deadline is never seen. -/
def skippingTicks (longest start deadline : Nat) (hlt : deadline < 2 ^ 32)
    (h : 2 ^ 32 < deadline + longest) : Schedule longest where
  time k := skipping start deadline k - start
  c2h _ := ByteRing.empty
  time_zero := Nat.sub_self start
  advances k := by
    have hle := start_le_skipping start deadline k
    have hstep := skipping_advances start deadline k
    omega
  advances_le k := by
    have hle := start_le_skipping start deadline k
    have hstep := skipping_advances start deadline k
    omega

theorem not_honours_of_near (hpos : 0 < timeout.ticks)
    (hnowrap : start + timeout.ticks < 2 ^ 32) (h : 2 ^ 32 < start + timeout.ticks + longest) :
    ¬ Honours longest start timeout := by
  intro hh
  obtain ⟨bound, hreturns⟩ := hh.returns
  obtain ⟨fuel, k, hwait, -⟩ :=
    hreturns (skippingTicks longest start (start + timeout.ticks) hnowrap h)
  have hgo : ∀ k, (skippingTicks longest start (start + timeout.ticks) hnowrap h).goesOn start
      timeout k = true := by
    intro k
    have hle := start_le_skipping start (start + timeout.ticks) k
    have hmod := skipping_mod (show start < start + timeout.ticks by omega) hnowrap k
    rw [goesOn_iff (by omega), Nat.mod_eq_of_lt hnowrap]
    refine ⟨show ByteRing.empty.count = 0 by decide, ?_⟩
    show (start + (skipping start (start + timeout.ticks) k - start)) % 2 ^ 32 < _
    rwa [Nat.add_sub_cancel' hle]
  rw [wait, waitFrom_of_goesOn hgo] at hwait
  cases hwait

/-- **Wait**: the timeout is honoured if and only if it is zero, or the deadline is no nearer to the
wrap-around of the tick count than the longest delay. -/
theorem honours_iff (longest start : Nat) (timeout : Timeout) (hlongest : 0 < longest)
    (hstart : start < 2 ^ 32) : Honours longest start timeout ↔
      timeout.ticks = 0 ∨ start + timeout.ticks + longest ≤ 2 ^ 32 := by
  constructor
  · intro hh
    by_contra hnot
    obtain ⟨hpos, hfar⟩ := not_or.mp hnot
    by_cases hwrap : 2 ^ 32 ≤ start + timeout.ticks
    · exact not_honours_of_wrap hlongest hstart (by omega) hwrap hh
    · exact not_honours_of_near (by omega) (by omega) (by omega) hh
  · rintro (hzero | hfar)
    · exact honours_zero hstart hzero
    · exact honours_of_far hlongest hstart hfar

/-- A second, 2000 ticks before the wrap-around. -/
theorem honours_second : Honours 1 (2 ^ 32 - 2000) ⟨1000, by decide⟩ :=
  (honours_iff 1 (2 ^ 32 - 2000) ⟨1000, by decide⟩ (by decide) (by decide)).mpr
    (Or.inr (by decide))

/-- And 500 ticks before it. -/
theorem not_honours_second : ¬ ∀ (longest start : Nat) (timeout : Timeout), 0 < longest →
    start < 2 ^ 32 → Honours longest start timeout := by
  intro h
  have hh := h 1 (2 ^ 32 - 500) ⟨1000, by decide⟩ (by decide) (by decide)
  exact not_honours_of_wrap (by decide) (by decide) (by decide) (by decide) hh

end Bl616cl.Hci
