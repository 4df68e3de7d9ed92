import Mathlib.Tactic.Common

/-!
# Memory cells

A memory is a function from offsets to cells. `read m i len` is what the `len` cells from `i` on
hold, `write m i xs` stores a list from `i` on; the lemmas say what can be read after a write.
-/

namespace Bl616cl.Lib.Memory

variable {α : Type*}

def read (m : Nat → α) (i len : Nat) : List α := (List.range len).map fun k => m (i + k)

def write (m : Nat → α) (i : Nat) (xs : List α) : Nat → α :=
  fun k => if i ≤ k then xs.getD (k - i) (m k) else m k

variable {m : Nat → α} {i j len : Nat} {xs : List α}

@[simp] theorem length_read : (read m i len).length = len := by simp [read]

@[simp] theorem read_zero : read m i 0 = [] := rfl

theorem read_add (a b : Nat) : read m i (a + b) = read m i a ++ read m (i + a) b := by
  simp [read, List.range_add, Nat.add_assoc]

theorem read_succ : read m i (len + 1) = m i :: read m (i + 1) len := by
  rw [Nat.add_comm, read_add]
  rfl

@[simp] theorem read_write : read (write m i xs) i xs.length = xs := by
  refine List.ext_getElem (by simp) fun k hk hk' => ?_
  simp [read, write, hk']

/-- What lies before the cells written is as it was. -/
theorem read_write_of_le (h : i + len ≤ j) : read (write m j xs) i len = read m i len := by
  refine List.ext_getElem (by simp) fun k hk _ => ?_
  have hlt : k < len := by simpa using hk
  have hbefore : ¬ j ≤ i + k := by omega
  simp [read, write, hbefore]

theorem read_write_of_ge (h : j + xs.length ≤ i) : read (write m j xs) i len = read m i len := by
  refine List.ext_getElem (by simp) fun k hk _ => ?_
  have hbehind : xs.length ≤ i + k - j := by omega
  simp [read, write, List.getElem?_eq_none hbehind]

theorem write_of_lt (h : j < i) : write m i xs j = m j := if_neg (by omega)

theorem write_of_ge (h : i + xs.length ≤ j) : write m i xs j = m j := by
  have hbehind : xs.length ≤ j - i := by omega
  simp [write, List.getElem?_eq_none hbehind]

theorem write_of_mem {k : Nat} (hlo : i ≤ k) (hhi : k < i + xs.length) :
    xs[k - i]? = some (write m i xs k) := by
  have hlt : k - i < xs.length := by omega
  simp [write, hlo, hlt]

theorem read_congr {m' : Nat → α} (h : ∀ k, i ≤ k → k < i + len → m k = m' k) :
    read m i len = read m' i len := by
  refine List.map_congr_left fun k hk => h _ (Nat.le_add_right i k) ?_
  have := List.mem_range.1 hk
  omega

theorem write_read {m' : Nat → α} (hij : i ≤ j) (hj : j < i + len) :
    write m i (read m' i len) j = m' j := by
  have hlt : j - i < len := by omega
  simp [write, read, hij, hlt]

theorem write_read_of_lt {m' : Nat → α} {k : Nat} (hk : k < len) :
    write m i (read m' j len) (i + k) = m' (j + k) := by
  simp [write, read, hk]

theorem read_write_append (m : Nat → α) (i len : Nat) (xs : List α) :
    read (write m (i + len) xs) i (len + xs.length) =
    read m i len ++ xs := by
  rw [read_add, read_write_of_le (Nat.le_refl _), read_write]

end Bl616cl.Lib.Memory
