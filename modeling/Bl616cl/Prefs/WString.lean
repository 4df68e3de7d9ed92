import Mathlib.Tactic.Common

/-!
# `String` on a heap that may fail

The parts of the Arduino `String` that build a key. Where `reserve` cannot allocate, `assign` and
`concat` leave the string as it was, and no caller of `operator+` can tell.
-/

namespace Bl616cl.Prefs

/-- A C string: the characters before its NUL. -/
structure CStr where
  chars : List UInt8
  noNul : 0 ∉ chars
  deriving DecidableEq

/-- The outcomes of the allocations to come. Once they are used up, allocations succeed. -/
abbrev Heap := List Bool

def alloc : Heap → Bool × Heap
  | [] => (true, [])
  | ok :: heap => (ok, heap)

structure WString where
  text : List UInt8
  capacity : Nat
  /-- `buffer_` is not null. -/
  allocated : Bool
  deriving DecidableEq, Repr

namespace WString

def init : WString := ⟨[], 0, false⟩

def length (s : WString) : Nat := s.text.length

def reserve (s : WString) (size : Nat) (heap : Heap) : Bool × WString × Heap :=
  if s.capacity ≥ size ∧ s.allocated then (true, s, heap)
  else if (alloc heap).1 then (true, { s with capacity := size, allocated := true }, (alloc heap).2)
  else (false, s, (alloc heap).2)

def assign (s : WString) (value : List UInt8) (heap : Heap) : WString × Heap :=
  let r := s.reserve value.length heap
  if r.1 then ({ r.2.1 with text := value }, r.2.2) else (r.2.1, r.2.2)

def concat (s : WString) (value : List UInt8) (heap : Heap) : WString × Heap :=
  if value.length = 0 then (s, heap)
  else
    let r := s.reserve (s.length + value.length) heap
    if r.1 then ({ r.2.1 with text := s.text ++ value }, r.2.2) else (r.2.1, r.2.2)

/-- `operator+(const String &left, const char *right)`. -/
def add (left : WString) (right : List UInt8) (heap : Heap) : WString × Heap :=
  let result := init.assign left.text heap
  result.1.concat right result.2

/-! ## Which characters survive -/

variable {s : WString} {value : List UInt8}

theorem assign_init (value : List UInt8) (heap : Heap) :
    (init.assign value heap).1.text = (if (alloc heap).1 then value else []) ∧
      (init.assign value heap).2 = (alloc heap).2 := by
  cases h : (alloc heap).1 <;> simp [assign, reserve, init, h]

/-- A copy has no room to spare, so appending to it allocates. -/
theorem capacity_assign_init (value : List UInt8) (heap : Heap) :
    (init.assign value heap).1.capacity = (init.assign value heap).1.length := by
  cases h : (alloc heap).1 <;> simp [assign, reserve, init, h, length]

theorem concat_text (hcap : s.capacity = s.length) (hne : value ≠ []) (heap : Heap) :
    (s.concat value heap).1.text = (if (alloc heap).1 then s.text ++ value else s.text) ∧
      (s.concat value heap).2 = (alloc heap).2 := by
  have hpos : value.length ≠ 0 := mt List.length_eq_zero_iff.mp hne
  have hfull : ¬ (s.capacity ≥ s.length + value.length ∧ s.allocated = true) := by omega
  cases h : (alloc heap).1 <;> simp [concat, reserve, hpos, hfull, h]

theorem add_text (hne : value ≠ []) (heap : Heap) :
    (s.add value heap).1.text = (if (alloc heap).1 then s.text else []) ++
        (if (alloc (alloc heap).2).1 then value else []) ∧
      (s.add value heap).2 = (alloc (alloc heap).2).2 := by
  obtain ⟨htext, hheap⟩ := assign_init s.text heap
  obtain ⟨hcat, hrest⟩ :=
    concat_text (capacity_assign_init s.text heap) hne (alloc heap).2
  rw [add, hheap]
  refine ⟨?_, hrest⟩
  rw [hcat, htext]
  split <;> simp

theorem add_nil (heap : Heap) :
    (s.add [] heap).1.text = (if (alloc heap).1 then s.text else []) ∧
      (s.add [] heap).2 = (alloc heap).2 := by
  simpa [add, concat] using assign_init s.text heap

end WString

end Bl616cl.Prefs
