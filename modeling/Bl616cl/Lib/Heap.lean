import Mathlib.Logic.Function.Basic
import Mathlib.Tactic.Common

/-!
# A heap of blocks

Blocks are known by number; a number is used once. A cell that has not been written is `none`. A use
of a released block or of a cell outside of its block, or a copy between overlapping cells, is
undefined: it sets `fault`, which stays set. `Frame h h' p` says that from `h` to `h'` only the
block `p` has been changed.
-/

namespace Bl616cl.Lib

structure Heap (α : Type*) where
  blocks : Nat → Option (List (Option α))
  /-- The numbers from here on are unused. -/
  next : Nat
  fault : Bool

/-- A pointer into memory that is never released, or to the cell `off` of a block. -/
inductive Ptr (α : Type*) where
  | static (cells : List α)
  | block (id off : Nat)

/-- What `realloc` does: it returns null, and keeps the block or, for 0 cells, releases it; or it
grows the block where it is, or moves it. -/
inductive Realloc where
  | fails
  | frees
  | inPlace
  | moves
  deriving DecidableEq, Repr

/-- Null is returned. -/
def Realloc.isNull : Realloc → Bool
  | fails | frees => true
  | inPlace | moves => false

variable {α : Type*}

/-- The cells from `off` on are replaced. -/
def splice (cells : List α) (off : Nat) (data : List α) : List α :=
  cells.take off ++ (data ++ cells.drop (off + data.length))

/-- The first `n` cells, and unwritten ones behind them. -/
def resize (cells : List (Option α)) (n : Nat) : List (Option α) :=
  cells.take n ++ List.replicate (n - cells.length) none

namespace Heap

variable (h : Heap α)

def empty : Heap α := ⟨fun _ => none, 0, false⟩

def fail : Heap α := { h with fault := true }

/-- `n` cells from the pointer on. -/
def read : Ptr α → Nat → Option (List (Option α))
  | .static cells, n => if n ≤ cells.length then some ((cells.take n).map some) else none
  | .block id off, n =>
    (h.blocks id).bind fun cells =>
      if off + n ≤ cells.length then some ((cells.drop off).take n) else none

def set (id : Nat) (cells : Option (List (Option α))) : Heap α :=
  { h with blocks := Function.update h.blocks id cells }

/-- The cells are written from `off` on into the block; null has none. -/
def store (p : Option Nat) (off : Nat) (data : List (Option α)) : Heap α :=
  match p with
  | none => h.fail
  | some id =>
    match h.blocks id with
    | none => h.fail
    | some cells =>
      if off + data.length ≤ cells.length then h.set id (some (splice cells off data)) else h.fail

/-- `n` cells from `off` on in the block are also from the pointer on. -/
def Overlaps (p : Option Nat) (off : Nat) (source : Ptr α) (n : Nat) : Prop :=
  match source with
  | .static _ => False
  | .block id k => p = some id ∧ off < k + n ∧ k < off + n

instance (p : Option Nat) (off : Nat) (n : Nat) : ∀ source : Ptr α,
    Decidable (Overlaps p off source n)
  | .static _ => inferInstanceAs (Decidable False)
  | .block _ _ => inferInstanceAs (Decidable (_ ∧ _ ∧ _))

def memcpy (p : Option Nat) (off : Nat) (source : Ptr α) (n : Nat) : Heap α :=
  if Overlaps p off source n then h.fail
  else
    match h.read source n with
    | none => h.fail
    | some data => h.store p off data

def free : Option Nat → Heap α
  | none => h
  | some id => if (h.blocks id).isSome then h.set id none else h.fail

/-- A new block. -/
def malloc (cells : List (Option α)) : Nat × Heap α :=
  (h.next, { h with blocks := Function.update h.blocks h.next (some cells), next := h.next + 1 })

def realloc (p : Option Nat) (n : Nat) (out : Realloc) : Option Nat × Heap α :=
  match out with
  | .fails => (none, h)
  | .frees => (none, if n = 0 then h.free p else h)
  | .inPlace | .moves =>
    match p with
    | none =>
      let r := h.malloc (resize [] n)
      (some r.1, r.2)
    | some id =>
      match h.blocks id with
      | none => (p, h.fail)
      | some cells =>
        if out = .inPlace then (p, h.set id (some (resize cells n)))
        else
          let r := (h.set id none).malloc (resize cells n)
          (some r.1, r.2)

/-! ## What is changed -/

structure Frame (h h' : Heap α) (p : Option Nat) : Prop where
  next : h.next ≤ h'.next
  blocks : ∀ id < h.next, p ≠ some id → h'.blocks id = h.blocks id
  fault : h.fault = true → h'.fault = true

variable {h : Heap α} {h' h'' : Heap α} {p q : Option Nat} {off n id : Nat}
  {data cells : List (Option α)} {source : Ptr α}

theorem Frame.refl (h : Heap α) (p : Option Nat) : Frame h h p :=
  ⟨Nat.le_refl _, fun _ _ _ => rfl, fun h => h⟩

/-- A block that is not there yet may be changed too. -/
theorem Frame.trans (h1 : Frame h h' p) (h2 : Frame h' h'' q)
    (hq : ∀ id < h.next, q = some id → p = some id) : Frame h h'' p := by
  refine ⟨Nat.le_trans h1.next h2.next, fun id hid hp => ?_, fun h => h2.fault (h1.fault h)⟩
  have hq' : q ≠ some id := fun h => hp (hq id hid h)
  rw [h2.blocks id (Nat.lt_of_lt_of_le hid h1.next) hq', h1.blocks id hid hp]

theorem Frame.of_none (hf : Frame h h' none) (p : Option Nat) : Frame h h' p :=
  ⟨hf.next, fun id hid _ => hf.blocks id hid (by rintro ⟨⟩), hf.fault⟩

theorem frame_fail (h : Heap α) (p : Option Nat) : Frame h h.fail p :=
  ⟨Nat.le_refl _, fun _ _ _ => rfl, fun _ => rfl⟩

theorem frame_set (h : Heap α) (id : Nat) (cells : Option (List (Option α))) :
    Frame h (h.set id cells) (some id) := by
  refine ⟨Nat.le_refl _, fun j _ hj => ?_, fun h => h⟩
  exact Function.update_of_ne (fun heq => hj (by rw [heq])) _ _

theorem frame_store (h : Heap α) (p : Option Nat) (off : Nat) (data : List (Option α)) :
    Frame h (h.store p off data) p := by
  unfold store
  split
  · exact frame_fail h _
  · split
    · exact frame_fail h _
    · split
      · exact frame_set h _ _
      · exact frame_fail h _

theorem frame_memcpy (h : Heap α) (p : Option Nat) (off : Nat) (source : Ptr α) (n : Nat) :
    Frame h (h.memcpy p off source n) p := by
  unfold memcpy
  split
  · exact frame_fail h _
  · split
    · exact frame_fail h _
    · exact frame_store h _ _ _

theorem frame_free (h : Heap α) (p : Option Nat) : Frame h (h.free p) p := by
  unfold free
  split
  · exact Frame.refl h _
  · split
    · exact frame_set h _ _
    · exact frame_fail h _

theorem fault_free (hp : ∀ id, p = some id → (h.blocks id).isSome = true) :
    (h.free p).fault = h.fault := by
  cases p with
  | none => rfl
  | some id => simp only [free, hp id rfl, if_true, set]

@[simp] theorem blocks_set (h : Heap α) (id : Nat) (cells : Option (List (Option α))) :
    (h.set id cells).blocks id = cells := Function.update_self _ _ _

theorem blocks_set_of_ne (h : Heap α) {id id' : Nat} (hne : id' ≠ id)
    (cells : Option (List (Option α))) : (h.set id cells).blocks id' = h.blocks id' :=
  Function.update_of_ne hne _ _

theorem blocks_free_of_ne (hne : p ≠ some id) : (h.free p).blocks id = h.blocks id := by
  cases p with
  | none => rfl
  | some id' =>
    simp only [free]
    split
    · exact blocks_set_of_ne h (fun heq => hne (by rw [heq])) _
    · rfl

theorem blocks_free (hid : (h.free p).blocks id = some cells) : h.blocks id = some cells := by
  by_cases hp : p = some id
  · subst hp
    simp only [free] at hid
    split at hid
    · rw [blocks_set] at hid
      cases hid
    · exact hid
  · rwa [blocks_free_of_ne hp] at hid

theorem frame_malloc (h : Heap α) (p : Option Nat) (cells : List (Option α)) :
    Frame h (h.malloc cells).2 p := by
  refine ⟨Nat.le_succ _, fun j hj _ => ?_, fun h => h⟩
  exact Function.update_of_ne (Nat.ne_of_lt hj) _ _

theorem frame_realloc (h : Heap α) (p : Option Nat) (n : Nat) (out : Realloc) :
    Frame h (h.realloc p n out).2 p := by
  unfold realloc
  split
  · exact Frame.refl h _
  · split
    · exact frame_free h _
    · exact Frame.refl h _
  · split
    · exact frame_malloc h _ _
    · split
      · exact frame_fail h _
      · exact frame_set h _ _
  · split
    · exact frame_malloc h _ _
    · split
      · exact frame_fail h _
      · exact (frame_set h _ _).trans (frame_malloc _ none _) (by simp)

/-! ## What is read and written -/

theorem store_eq (hid : h.blocks id = some cells) (hfit : off + data.length ≤ cells.length) :
    h.store (some id) off data = h.set id (some (splice cells off data)) := by
  simp only [store, hid]
  exact if_pos hfit

/-- Outside of its block nothing can be written. -/
theorem fault_store (hid : ∀ id cells, p = some id → h.blocks id = some cells →
    cells.length < off + data.length) : (h.store p off data).fault = true := by
  cases p with
  | none => rfl
  | some id =>
    cases hcells : h.blocks id with
    | none => simp only [store, hcells, fail]
    | some cells =>
      have hlt := hid id cells rfl hcells
      simp only [store, hcells, if_neg (Nat.not_le.mpr hlt), fail]

theorem length_of_read (hr : h.read source n = some data) : data.length = n := by
  cases source with
  | static cells =>
    simp only [read] at hr
    split at hr
    · next hle =>
      obtain rfl := Option.some.inj hr
      rw [List.length_map, List.length_take]
      omega
    · cases hr
  | block id off =>
    obtain ⟨cells, -, hcells⟩ := Option.bind_eq_some_iff.mp hr
    split at hcells
    · next hle =>
      obtain rfl := Option.some.inj hcells
      rw [List.length_take, List.length_drop]
      omega
    · cases hcells

theorem fault_memcpy (hid : ∀ id cells, p = some id → h.blocks id = some cells →
    cells.length < off + n) : (h.memcpy p off source n).fault = true := by
  unfold memcpy
  split
  · rfl
  · split
    · rfl
    · next data hr =>
      refine fault_store fun id cells hp hcells => ?_
      rw [length_of_read hr]
      exact hid id cells hp hcells

theorem fault_memcpy_of_read (hr : h.read source n = none) :
    (h.memcpy p off source n).fault = true := by
  unfold memcpy
  split
  · rfl
  · rw [hr]; rfl

theorem memcpy_eq (hno : ¬ Overlaps p off source n) (hr : h.read source n = some data) :
    h.memcpy p off source n = h.store p off data := by
  unfold memcpy
  rw [if_neg hno, hr]

theorem read_of_frame (hf : Frame h h' p) (hsource : ∀ id k, source = .block id k →
    id < h.next ∧ p ≠ some id) : h'.read source n = h.read source n := by
  cases source with
  | static cells => rfl
  | block id k =>
    obtain ⟨hlt, hne⟩ := hsource id k rfl
    simp only [read, hf.blocks id hlt hne]

theorem splice_splice (cells : List (Option α)) (hoff : off ≤ cells.length) (z : Option α) :
    splice (splice cells off data) (off + data.length) [z] =
      cells.take off ++ (data ++ z :: cells.drop (off + data.length + 1)) := by
  have hlen : (cells.take off).length = off := by rw [List.length_take]; omega
  have htake : (splice cells off data).take (off + data.length) = cells.take off ++ data := by
    unfold splice
    rw [← List.append_assoc, List.take_left' (by rw [List.length_append, hlen])]
  have hdrop : (splice cells off data).drop (off + data.length + 1) =
      cells.drop (off + data.length + 1) := by
    unfold splice
    rw [← List.append_assoc, ← List.drop_drop,
      List.drop_left' (by rw [List.length_append, hlen]), List.drop_drop]
  rw [splice, htake, List.length_singleton, hdrop, List.append_assoc]
  rfl

theorem length_splice (hfit : off + data.length ≤ cells.length) :
    (splice cells off data).length = cells.length := by
  unfold splice
  simp only [List.length_append, List.length_take, List.length_drop]
  omega

/-- A string of cells and its terminator, written behind the first `off` cells. -/
theorem store_memcpy {z : Option α} (hno : ¬ Overlaps (some id) off source n)
    (hr : h.read source n = some data) (hid : h.blocks id = some cells)
    (hfit : off + n + 1 ≤ cells.length) :
    (h.memcpy (some id) off source n).store (some id) (off + n) [z] =
      h.set id (some (cells.take off ++ (data ++ z :: cells.drop (off + n + 1)))) := by
  have hlen := length_of_read hr
  subst hlen
  rw [memcpy_eq hno hr, store_eq hid (by omega), store_eq (blocks_set _ _ _)
    (by rw [length_splice (by omega)]; simpa using hfit), splice_splice _ (by omega)]
  simp [set]

/-! ## Reallocation -/

variable {out : Realloc}

/-- Null leaves the heap alone, unless a block is given back for it. -/
theorem realloc_null (hout : out.isNull = true) (hkeep : n ≠ 0 ∨ out = .fails ∨ p = none) :
    h.realloc p n out = (none, h) := by
  cases out with
  | fails => rfl
  | frees =>
    rcases hkeep with hn | hout | hp
    · simp only [realloc, if_neg hn]
    · cases hout
    · simp only [realloc, hp, free, ite_self]
  | inPlace | moves => cases hout

theorem realloc_frees (hid : h.blocks id = some cells) :
    (h.realloc (some id) 0 .frees).1 = none ∧
      (h.realloc (some id) 0 .frees).2.blocks id = none := by
  simp [realloc, free, hid]

/-- The cells that are there are kept, in the old block or in a new one. -/
theorem realloc_some (hout : out.isNull = false)
    (hp : ∀ id, p = some id → (h.blocks id).isSome = true) (n : Nat) :
    ∃ id h', h.realloc p n out = (some id, h') ∧
      h'.blocks id = some (resize ((p.bind h.blocks).getD []) n) ∧ h'.fault = h.fault ∧
      (p = some id ∨ (h.next ≤ id ∧ id < h'.next) ∧ (p = none ∨ out = .moves)) := by
  cases p with
  | none =>
    refine ⟨h.next, (h.malloc (resize [] n)).2, ?_, Function.update_self _ _ _, rfl,
      Or.inr ⟨⟨Nat.le_refl _, Nat.lt_succ_self _⟩, Or.inl rfl⟩⟩
    cases out with
    | fails | frees => cases hout
    | inPlace | moves => rfl
  | some id =>
    obtain ⟨cells, hcells⟩ := Option.isSome_iff_exists.mp (hp id rfl)
    simp only [Option.bind_some, hcells, Option.getD_some]
    cases out with
    | fails | frees => cases hout
    | inPlace =>
      exact ⟨id, h.set id (some (resize cells n)), by simp [realloc, hcells], blocks_set _ _ _, rfl,
        Or.inl rfl⟩
    | moves =>
      exact ⟨h.next, ((h.set id none).malloc (resize cells n)).2,
        by simp [realloc, hcells, malloc, set], Function.update_self _ _ _, rfl,
        Or.inr ⟨⟨Nat.le_refl _, Nat.lt_succ_self _⟩, Or.inr rfl⟩⟩

theorem realloc_moves (hid : h.blocks id = some cells) (hlt : id < h.next) (n : Nat) :
    (h.realloc (some id) n .moves).2.blocks id = none := by
  simp only [realloc, hid]
  rw [if_neg (by decide)]
  exact (Function.update_of_ne (Nat.ne_of_lt hlt) _ _).trans (blocks_set _ _ _)

end Heap

end Bl616cl.Lib
