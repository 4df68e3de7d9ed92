import Mathlib.Logic.Function.Basic
import Mathlib.Tactic.Common

/-!
# Ring buffers

A ring is a memory `buf` whose cells `0 .. n - 1` are used circularly. `cells n buf i len` is
the list held by the `len` cells from index `i` on; `put` stores a list at successive indices.
The lemmas say what storing at the free end and reading at the front do to that list. They
serve rings that keep a fill count and rings that tell it from their two indices.
-/

namespace Bl616cl.Lib.Ring

variable {α : Type*} {n : Nat} {buf : Nat → α} {i len : Nat}

/-- The contents of the `len` cells that start at index `i`. -/
def cells (n : Nat) (buf : Nat → α) : Nat → Nat → List α
  | _, 0 => []
  | i, len + 1 => buf i :: cells n buf ((i + 1) % n) len

/-- Store `xs` at successive indices from `t` on; the memory and the index after the last. -/
def put (n : Nat) : (Nat → α) → Nat → List α → (Nat → α) × Nat
  | buf, t, [] => (buf, t)
  | buf, t, x :: xs => put n (Function.update buf t x) ((t + 1) % n) xs

theorem cells_succ : cells n buf i (len + 1) = buf i :: cells n buf ((i + 1) % n) len := rfl

@[simp] theorem length_cells : (cells n buf i len).length = len := by
  induction len generalizing i with
  | zero => rfl
  | succ len ih => simp [cells, ih]

theorem cells_snoc (hi : i < n) :
    cells n buf i (len + 1) = cells n buf i len ++ [buf ((i + len) % n)] := by
  induction len generalizing i with
  | zero => simp [cells, Nat.mod_eq_of_lt hi]
  | succ len ih =>
    have hn : 0 < n := by omega
    rw [cells_succ, ih (Nat.mod_lt _ hn), cells_succ, List.cons_append, Nat.mod_add_mod,
      Nat.add_right_comm, Nat.add_assoc]

/-- Off the cells of the list, storing changes nothing. -/
theorem cells_update (hi : i < n) {t : Nat} {x : α} (ht : ∀ k < len, t ≠ (i + k) % n) :
    cells n (Function.update buf t x) i len = cells n buf i len := by
  induction len generalizing i with
  | zero => rfl
  | succ len ih =>
    have hn : 0 < n := by omega
    have h0 : i ≠ t := by
      have := ht 0 (by omega)
      rw [Nat.add_zero, Nat.mod_eq_of_lt hi] at this
      exact this.symm
    rw [cells_succ, cells_succ, Function.update_of_ne h0, ih (Nat.mod_lt _ hn)]
    intro k hk
    rw [Nat.mod_add_mod, Nat.add_assoc, Nat.add_comm 1 k]
    exact ht (k + 1) (by omega)

theorem free_ne (hlen : len < n) : ∀ k < len, (i + len) % n ≠ (i + k) % n := by
  intro k hk h
  have h1 := Nat.div_add_mod (i + len) n
  have h2 := Nat.div_add_mod (i + k) n
  rw [h] at h1
  have h3 : n * ((i + len) / n) = n * ((i + k) / n) + (len - k) := by omega
  rcases Nat.lt_or_ge ((i + k) / n) ((i + len) / n) with hq | hq
  · have := Nat.mul_le_mul_left n hq
    rw [Nat.mul_succ] at this
    omega
  · have := Nat.mul_le_mul_left n hq
    omega

/-- Storing at the first free cell appends. -/
theorem cells_push (hi : i < n) (hlen : len < n) (x : α) :
    cells n (Function.update buf ((i + len) % n) x) i (len + 1) = cells n buf i len ++ [x] := by
  rw [cells_snoc hi, Function.update_self, cells_update hi (free_ne hlen)]

/-- Storing a list that fits from the first free cell on appends it. -/
theorem cells_put (buf : Nat → α) (hi : i < n) (xs : List α) (hlen : len + xs.length ≤ n) :
    cells n (put n buf ((i + len) % n) xs).1 i (len + xs.length) = cells n buf i len ++ xs := by
  induction xs generalizing buf len with
  | nil => simp [put]
  | cons x xs ih =>
    simp only [List.length_cons] at hlen
    have hnext : ((i + len) % n + 1) % n = (i + (len + 1)) % n := by
      rw [Nat.mod_add_mod, Nat.add_assoc]
    have hrest := ih (Function.update buf ((i + len) % n) x) (show len + 1 + xs.length ≤ n by omega)
    have hcount : len + (x :: xs).length = len + 1 + xs.length := by
      rw [List.length_cons]; omega
    rw [put, hnext, hcount, hrest, cells_push hi (by omega), List.append_assoc,
      List.singleton_append]

theorem put_index {t : Nat} (ht : t < n) (xs : List α) :
    (put n buf t xs).2 = (t + xs.length) % n := by
  induction xs generalizing buf t with
  | nil => simp [put, Nat.mod_eq_of_lt ht]
  | cons x xs ih =>
    have hn : 0 < n := by omega
    rw [put, ih (Nat.mod_lt _ hn), List.length_cons, Nat.mod_add_mod]
    congr 1
    omega

/-! ## Fill level told by the two indices

`head` is the oldest cell, `tail` the first free one, and `head = tail` marks the empty ring,
so at most `n - 1` of the `n` cells can be told to be in use. -/

/-- The number of cells in use. -/
def used (n head tail : Nat) : Nat := (tail + n - head) % n

section
variable {head tail k : Nat}

theorem mod_once {a : Nat} (h : a < 2 * n) : a % n = if a < n then a else a - n := by
  split
  · next hlt => exact Nat.mod_eq_of_lt hlt
  · next hge => rw [Nat.mod_eq_sub_mod (by omega), Nat.mod_eq_of_lt (by omega)]

theorem used_eq (hh : head < n) (ht : tail < n) :
    used n head tail = if head ≤ tail then tail - head else tail + n - head := by
  unfold used
  rw [mod_once (by omega)]
  split <;> split <;> omega

theorem used_lt (hn : 0 < n) : used n head tail < n := Nat.mod_lt _ hn

theorem used_eq_zero (hh : head < n) (ht : tail < n) : used n head tail = 0 ↔ head = tail := by
  rw [used_eq hh ht]; split <;> omega

theorem head_add_used (hh : head < n) (ht : tail < n) :
    (head + used n head tail) % n = tail := by
  rw [used_eq hh ht]
  split
  · rw [show head + (tail - head) = tail by omega, Nat.mod_eq_of_lt ht]
  · rw [show head + (tail + n - head) = tail + n by omega, Nat.add_mod_right,
      Nat.mod_eq_of_lt ht]

/-- Moving the tail adds to the fill level, modulo the size of the ring. -/
theorem used_advance (hh : head < n) (ht : tail < n) :
    used n head ((tail + k) % n) = (used n head tail + k) % n := by
  have hn : 0 < n := by omega
  have hcast : (tail + k) % n + n - head = (tail + k) % n + (n - head) := by omega
  have hcast' : tail + n - head = tail + (n - head) := by omega
  unfold used
  rw [hcast, hcast', Nat.mod_add_mod, Nat.mod_add_mod]
  congr 1
  omega

/-- Moving the head of a non-empty ring takes one cell out of use. -/
theorem used_pop (hh : head < n) (ht : tail < n) (hne : head ≠ tail) :
    used n ((head + 1) % n) tail + 1 = used n head tail := by
  have hn : 0 < n := by omega
  rw [used_eq hh ht, used_eq (Nat.mod_lt _ hn) ht, mod_once (by omega)]
  split <;> split <;> split <;> omega

end

end Bl616cl.Lib.Ring
