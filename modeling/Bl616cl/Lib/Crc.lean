import Mathlib.Data.List.Basic

/-!
# Cyclic redundancy checks

A reflected checksum register of any width, fed bit by bit. What it makes of a message is linear,
and where the polynomial has a constant term no step loses a bit of the register: so two messages
that differ in no more consecutive bits than the register has give different sums.
-/

namespace Bl616cl.Lib.Crc

variable {w : Nat} (poly : BitVec w)

def feedback (b : Bool) : BitVec w := if b then poly else 0

/-- A bit of the message meets the lowest bit of the register. -/
def step (r : BitVec w) (b : Bool) : BitVec w := r >>> 1 ^^^ feedback poly (r.getLsbD 0 ^^ b)

def run (r : BitVec w) (bits : List Bool) : BitVec w := bits.foldl (step poly) r

/-- Feeding nothing but zeros. -/
def idle : Nat → BitVec w → BitVec w
  | 0, r => r
  | n + 1, r => idle n (step poly r false)

/-- Bits as a register, the first one lowest. -/
def load (w : Nat) : List Bool → BitVec w
  | [] => 0
  | b :: x => load w x <<< 1 ||| if b then 1 else 0

variable {poly} {r s : BitVec w} {a b : Bool} {n : Nat} {x y p q : List Bool}

@[simp] theorem run_nil : run poly r [] = r := rfl

@[simp] theorem run_cons : run poly r (b :: x) = run poly (step poly r b) x := rfl

theorem run_append : run poly r (x ++ y) = run poly (run poly r x) y := List.foldl_append

/-! ## Linearity -/

theorem feedback_xor : feedback poly (a ^^ b) = feedback poly a ^^^ feedback poly b := by
  cases a <;> cases b <;> simp [feedback]

theorem step_xor : step poly (r ^^^ s) (a ^^ b) = step poly r a ^^^ step poly s b := by
  have hbit : ((r ^^^ s).getLsbD 0 ^^ (a ^^ b)) = ((r.getLsbD 0 ^^ a) ^^ (s.getLsbD 0 ^^ b)) := by
    rw [BitVec.getLsbD_xor]
    cases r.getLsbD 0 <;> cases s.getLsbD 0 <;> cases a <;> cases b <;> rfl
  rw [step, hbit, feedback_xor, BitVec.ushiftRight_xor_distrib, step, step]
  ac_rfl

theorem idle_xor : idle poly n (r ^^^ s) = idle poly n r ^^^ idle poly n s := by
  induction n generalizing r s with
  | zero => rfl
  | succ n ih =>
    rw [idle, ← Bool.xor_false false, step_xor, ih]
    rfl

/-- Registers that are fed the same bits differ as if they were fed zeros. -/
theorem run_xor (r s : BitVec w) (x : List Bool) :
    run poly r x ^^^ run poly s x = idle poly x.length (r ^^^ s) := by
  induction x generalizing r s with
  | nil => rfl
  | cons b x ih => rw [run_cons, run_cons, ih, ← step_xor, Bool.xor_self, List.length_cons, idle]

/-- While the lowest bits are clear there is nothing fed back. -/
theorem idle_shift (h : ∀ i < n, r.getLsbD i = false) : idle poly n r = r >>> n := by
  induction n generalizing r with
  | zero => simp [idle]
  | succ n ih =>
    have hstep : step poly r false = r >>> 1 := by
      rw [step, h 0 (Nat.succ_pos n)]
      simp [feedback]
    rw [idle, hstep, ih, ← BitVec.shiftRight_add, Nat.add_comm]
    intro i hi
    rw [BitVec.getLsbD_ushiftRight, Nat.add_comm]
    exact h (i + 1) (by omega)

/-! ## No bit is lost -/

theorem getLsbD_load {i : Nat} (hi : i < w) : (load w x).getLsbD i = x.getD i false := by
  induction x generalizing i with
  | nil => simp [load]
  | cons b x ih =>
    rw [load, BitVec.getLsbD_or, BitVec.getLsbD_shiftLeft]
    cases i with
    | zero => cases b <;> simp [hi]
    | succ i =>
      rw [Nat.add_sub_cancel, ih (by omega), List.getD_cons_succ]
      cases b <;> simp [hi]

theorem load_shift (hx : (b :: x).length ≤ w) : load w (b :: x) >>> 1 = load w x := by
  apply BitVec.eq_of_getLsbD_eq
  intro i hi
  rw [BitVec.getLsbD_ushiftRight, Nat.add_comm, getLsbD_load hi]
  rcases Nat.lt_or_ge (i + 1) w with hlt | hge
  · rw [getLsbD_load hlt, List.getD_cons_succ]
  · have hend : x.length ≤ i := by
      rw [List.length_cons] at hx
      omega
    rw [BitVec.getLsbD_of_ge _ _ hge, List.getD_eq_getElem?_getD, List.getElem?_eq_none hend]
    rfl

theorem load_inj (h : load w x = load w y) (hlen : x.length = y.length) (hx : x.length ≤ w) :
    x = y := by
  refine List.ext_getElem hlen fun i hi hi' => ?_
  have hbit := congrArg (fun r => r.getLsbD i) h
  simpa [getLsbD_load (show i < w by omega), hi, hi'] using hbit

/-- A message no longer than the register is as good as put in it at once. -/
theorem run_eq_idle (hx : x.length ≤ w) : run poly r x = idle poly x.length (r ^^^ load w x) := by
  induction x generalizing r with
  | nil => simp [load, idle]
  | cons b x ih =>
    have hlow : (load w (b :: x)).getLsbD 0 = b := getLsbD_load (by simp at hx; omega)
    have hstep : step poly (r ^^^ load w (b :: x)) false = step poly r b ^^^ load w x := by
      rw [← Bool.xor_self b, step_xor]
      congr 1
      rw [step, hlow, Bool.xor_self, load_shift hx]
      simp [feedback]
    rw [run_cons, ih (by simp at hx; omega), List.length_cons, idle, hstep]

theorem step_eq_zero (hpoly : poly.msb = true) (h : step poly r false = 0#w) : r = 0#w := by
  have hwidth : 0 < w := by
    rcases Nat.eq_zero_or_pos w with rfl | hpos
    · simp [BitVec.of_length_zero] at hpoly
    · exact hpos
  rw [step, Bool.xor_false, BitVec.xor_eq_zero_iff] at h
  cases hlow : r.getLsbD 0 with
  | true =>
    -- the constant term is left at the top
    rw [hlow, feedback, if_pos rfl] at h
    rw [← h, BitVec.msb_eq_getLsbD_last, BitVec.getLsbD_ushiftRight,
      BitVec.getLsbD_of_ge _ _ (by omega)] at hpoly
    exact absurd hpoly Bool.false_ne_true
  | false =>
    rw [hlow, feedback, if_neg Bool.false_ne_true] at h
    apply BitVec.eq_of_getLsbD_eq
    intro i hi
    cases i with
    | zero => simpa using hlow
    | succ i =>
      have hbit := congrArg (fun r => r.getLsbD i) h
      simpa [Nat.add_comm] using hbit

theorem idle_eq_zero (hpoly : poly.msb = true) (h : idle poly n r = 0#w) : r = 0#w := by
  induction n generalizing r with
  | zero => exact h
  | succ n ih => exact step_eq_zero hpoly (ih h)

theorem run_inj (hpoly : poly.msb = true) (h : run poly r x = run poly s x) : r = s := by
  have hzero : run poly r x ^^^ run poly s x = idle poly x.length (r ^^^ s) := run_xor r s x
  rw [h, BitVec.xor_self] at hzero
  exact BitVec.xor_eq_zero_iff.1 (idle_eq_zero hpoly hzero.symm)

/-- Messages that differ in no more consecutive bits than the register has are told apart. -/
theorem burst (hpoly : poly.msb = true) (hlen : x.length = y.length) (hx : x.length ≤ w)
    (h : run poly r (p ++ x ++ q) = run poly r (p ++ y ++ q)) : x = y := by
  rw [run_append, run_append, run_append, run_append] at h
  have hx' : y.length ≤ w := hlen ▸ hx
  have hsame : idle poly x.length (run poly r p ^^^ load w x) =
      idle poly x.length (run poly r p ^^^ load w y) := by
    rw [← run_eq_idle hx, hlen, ← run_eq_idle hx']
    exact run_inj hpoly h
  rw [← BitVec.xor_eq_zero_iff, ← idle_xor] at hsame
  have hload := BitVec.xor_eq_zero_iff.1 (idle_eq_zero hpoly hsame)
  exact load_inj ((BitVec.xor_right_inj _).1 hload) hlen hx

end Bl616cl.Lib.Crc
