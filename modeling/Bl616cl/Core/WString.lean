import Mathlib.Algebra.Group.Nat.Defs
import Bl616cl.Lib.Heap
import Bl616cl.Prefs.WString

/-!
# String

`WString.cpp`: `reserve`, `assign` and `concat` on a heap whose allocations may fail, stay where
they are or move. Sizes are `unsigned int`, of 32 bits.
-/

namespace Bl616cl.Core

open Bl616cl.Lib Heap

/-- `buffer_`, `capacity_` and `length_`. -/
structure WString where
  buffer : Option Nat
  capacity : Nat
  length : Nat
  deriving DecidableEq, Repr

/-- What a function returns, and what it leaves. -/
structure Done where
  ok : Bool
  str : WString
  heap : Heap UInt8

namespace WString

def init : WString := ⟨none, 0, 0⟩

variable (s : WString) (h : Heap UInt8)

/-- `c_str() + k`. -/
def cStr (k : Nat) : Ptr UInt8 :=
  match s.buffer with
  | none => .static ([0].drop k)
  | some id => .block id k

def reserve (size : Nat) (out : Realloc) : Done :=
  if s.capacity ≥ size ∧ s.buffer.isSome = true then ⟨true, s, h⟩
  else
    match h.realloc s.buffer ((size + 1) % 2 ^ 32) out with
    | (none, h) => ⟨false, s, h⟩
    | (some id, h) =>
      ⟨true, ⟨some id, size, s.length⟩, if s.length = 0 then h.store (some id) 0 [some 0] else h⟩

/-- The end of `assign` and `concat`: `length` bytes are copied to `off`, and a NUL is put behind
the new length. -/
def put (value : Ptr UInt8) (off length newLength : Nat) : Done :=
  ⟨true, { s with length := newLength },
    (h.memcpy s.buffer off value length).store s.buffer newLength [some 0]⟩

def assign (value : Ptr UInt8) (length : Nat) (out : Realloc) : Done :=
  let r := s.reserve h length out
  if r.ok then r.str.put r.heap value 0 length length else r

/-- `concat(value, length)`; `value` may be null. -/
def concat (value : Option (Ptr UInt8)) (length : Nat) (out : Realloc) : Done :=
  match value with
  | none => ⟨false, s, h⟩
  | some value =>
    if length = 0 then ⟨true, s, h⟩
    else
      let newLength := (s.length + length) % 2 ^ 32
      let r := s.reserve h newLength out
      if r.ok then r.str.put r.heap value r.str.length length newLength else r

/-- `concat` of a temporary string, which is destroyed then. -/
def concatTemp (temp : Done) (out : Realloc) : Done :=
  let r := s.concat temp.heap (some (temp.str.cStr 0)) temp.str.length out
  { r with heap := r.heap.free temp.str.buffer }

/-- `concat` of a number, by way of a `String` with its text. -/
def concatNumber (number : List UInt8) (temp out : Realloc) : Done :=
  s.concatTemp (init.assign h (.static (number ++ [0])) number.length temp) out

/-- The memory at `c_str()`. -/
def text : Option (List (Option UInt8)) :=
  match s.buffer with
  | none => some [some 0]
  | some id => h.blocks id

/-- `operator[]`; `none` where it reads no byte. -/
def index (k : Nat) : Option UInt8 :=
  if k < s.length then (s.text h).bind fun cells => (cells[k]?).join else some 0

/-! ## Contents -/

/-- The string can be used, and shows `t`. -/
structure Shows (t : List UInt8) : Prop where
  room : s.buffer.isSome = true → s.length ≤ s.capacity
  length : s.length = t.length
  cStr : ∃ rest, s.text h = some (t.map some ++ some 0 :: rest)
  index : ∀ k, s.index h k = some (t.getD k 0)

/-- The invariant: the block is as long as `capacity_` says, with the text and a NUL in it. -/
structure Holds (t : List UInt8) : Prop where
  length : s.length = t.length
  stored : (s.buffer = none ∧ t = []) ∨ ∃ id rest, s.buffer = some id ∧
    h.blocks id = some (t.map some ++ some 0 :: rest) ∧ s.capacity = t.length + rest.length ∧
      s.capacity + 1 < 2 ^ 32

/-! ## The conditions -/

/-- No block of `2 ^ 32` bytes is asked for, which would be one of 0 bytes; or null is returned for
it, and nothing has been released. -/
def ReserveSafe (size : Nat) (out : Realloc) : Prop :=
  (s.capacity ≥ size ∧ s.buffer.isSome = true) ∨ size + 1 < 2 ^ 32 ∨ out = .fails ∨
    (out = .frees ∧ s.buffer = none)

/-- The pointer goes into the buffer of the string itself. -/
def Own (value : Ptr UInt8) : Prop := ∃ id k, value = .block id k ∧ s.buffer = some id

/-- And the text does not overlap its destination. -/
def AssignSafe (value : Ptr UInt8) (length : Nat) (out : Realloc) : Prop :=
  s.ReserveSafe length out ∧ ¬ Overlaps s.buffer 0 value length

/-- And the new length does not wrap around, and the string's own text is not moved. -/
def ConcatSafe (value : Option (Ptr UInt8)) (length : Nat) (out : Realloc) : Prop :=
  ∀ p ∈ value, length ≠ 0 → s.length + length < 2 ^ 32 ∧
    s.ReserveSafe (s.length + length) out ∧
      (s.Own p → out = .moves → s.length + length ≤ s.capacity)

/-- And a number finds memory for its text. -/
def NumberSafe (number : List UInt8) (temp out : Realloc) : Prop :=
  number ≠ [] → temp.isNull = false ∧
    init.AssignSafe (.static (number ++ [0])) number.length temp ∧
      s.ConcatSafe (some (.static (number ++ [0]))) number.length out

variable {s h} {t d : List UInt8} {value : Ptr UInt8} {size n off : Nat} {out : Realloc} {r : Done}

theorem holds_init (h : Heap UInt8) : init.Holds h [] := ⟨rfl, Or.inl ⟨rfl, rfl⟩⟩

theorem Holds.block (hh : s.Holds h t) {id : Nat} (hb : s.buffer = some id) :
    ∃ rest, h.blocks id = some (t.map some ++ some 0 :: rest) ∧
      s.capacity = t.length + rest.length ∧ s.capacity + 1 < 2 ^ 32 := by
  rcases hh.stored with ⟨hnone, -⟩ | ⟨id', rest, hb', hcells⟩
  · rw [hnone] at hb
    cases hb
  · obtain rfl := Option.some.inj (hb'.symm.trans hb)
    exact ⟨rest, hcells⟩

theorem Holds.shows (hh : s.Holds h t) : s.Shows h t := by
  have htext : ∃ rest, s.text h = some (t.map some ++ some 0 :: rest) := by
    rcases hh.stored with ⟨hb, rfl⟩ | ⟨id, rest, hb, hcells, -, -⟩
    · exact ⟨[], by simp [text, hb]⟩
    · exact ⟨rest, by simp [text, hb, hcells]⟩
  refine ⟨fun hb => ?_, hh.length, htext, fun k => ?_⟩
  · obtain ⟨id, hid⟩ := Option.isSome_iff_exists.mp hb
    obtain ⟨rest, -, hcap, -⟩ := hh.block hid
    rw [hh.length, hcap]
    exact Nat.le_add_right _ _
  · obtain ⟨rest, htext⟩ := htext
    unfold index
    rw [htext, hh.length]
    split
    · next hk =>
      rw [Option.bind_some, List.getElem?_append_left (by simpa using hk)]
      simp [hk]
    · next hk => simp [List.getElem?_eq_none (Nat.not_lt.mp hk)]

/-! ## What the functions leave -/

/-- A function has left `t` in the string, and no other block changed. -/
structure Keeps (s : WString) (h : Heap UInt8) (t : List UInt8) (r : Done) : Prop where
  holds : r.str.Holds r.heap t
  frame : Frame h r.heap s.buffer
  fault : r.heap.fault = h.fault
  buffer : ∀ id, r.str.buffer = some id → s.buffer = some id ∨ (h.next ≤ id ∧ id < r.heap.next)

theorem Keeps.refl (hh : s.Holds h t) (ok : Bool) : Keeps s h t ⟨ok, s, h⟩ :=
  ⟨hh, Frame.refl h _, rfl, fun _ => Or.inl⟩

/-- `reserve` has; with true there is room. -/
structure Reserved (s : WString) (h : Heap UInt8) (t : List UInt8) (size : Nat) (out : Realloc)
    (r : Done) : Prop extends Keeps s h t r where
  room : r.ok = true → size ≤ r.str.capacity ∧ r.str.buffer.isSome = true
  stays : s.buffer.isSome = true → size ≤ s.capacity ∨ out ≠ .moves → r.str.buffer = s.buffer

theorem Holds.isSome_block (hh : s.Holds h t) (id : Nat) (hb : s.buffer = some id) :
    (h.blocks id).isSome = true := by
  obtain ⟨rest, hcells, -⟩ := hh.block hb
  rw [hcells]
  rfl

/-- A larger block: the text and its NUL, if there was one. -/
theorem Holds.resize_eq (hh : s.Holds h t)
    (hmore : ¬ (s.capacity ≥ size ∧ s.buffer.isSome = true)) :
    ∃ z rest, resize ((s.buffer.bind h.blocks).getD []) (size + 1) = t.map some ++ z :: rest ∧
      size = t.length + rest.length ∧ (t ≠ [] → z = some 0) := by
  rcases hh.stored with ⟨hb, rfl⟩ | ⟨id, rest, hb, hcells, hcap, -⟩
  · refine ⟨none, List.replicate size none, ?_, by simp, fun h => absurd rfl h⟩
    rw [hb]
    rfl
  · have hlt : s.capacity < size := by
      rw [hb] at hmore
      simpa using hmore
    have hlen : (t.map some ++ some 0 :: rest).length = s.capacity + 1 := by
      simp only [List.length_append, List.length_map, List.length_cons]
      omega
    refine ⟨some 0, rest ++ List.replicate (size - s.capacity) none, ?_, ?_, fun _ => rfl⟩
    · rw [hb, Option.bind_some, hcells, Option.getD_some]
      unfold resize
      rw [List.take_of_length_le (by omega), hlen, Nat.add_sub_add_right]
      simp
    · rw [List.length_append, List.length_replicate]
      omega

theorem reserve_enough (henough : s.capacity ≥ size ∧ s.buffer.isSome = true) :
    s.reserve h size out = ⟨true, s, h⟩ := if_pos henough

theorem reserve_null (hmore : ¬ (s.capacity ≥ size ∧ s.buffer.isSome = true))
    {h' : Heap UInt8} (hr : h.realloc s.buffer ((size + 1) % 2 ^ 32) out = (none, h')) :
    s.reserve h size out = ⟨false, s, h'⟩ := by
  unfold reserve
  rw [if_neg hmore, hr]

theorem reserve_some (hmore : ¬ (s.capacity ≥ size ∧ s.buffer.isSome = true))
    {id : Nat} {h' : Heap UInt8}
    (hr : h.realloc s.buffer ((size + 1) % 2 ^ 32) out = (some id, h')) :
    s.reserve h size out = ⟨true, ⟨some id, size, s.length⟩,
      if s.length = 0 then h'.store (some id) 0 [some 0] else h'⟩ := by
  unfold reserve
  rw [if_neg hmore, hr]

theorem terminated {z : Option UInt8} {rest : List (Option UInt8)} {id : Nat}
    (hcells : h.blocks id = some (t.map some ++ z :: rest)) (hz : t ≠ [] → z = some 0)
    (hlen : n = t.length) :
    (if n = 0 then h.store (some id) 0 [some 0] else h).blocks id =
        some (t.map some ++ some 0 :: rest) ∧
      Frame h (if n = 0 then h.store (some id) 0 [some 0] else h) (some id) ∧
      (if n = 0 then h.store (some id) 0 [some 0] else h).fault = h.fault ∧
      (if n = 0 then h.store (some id) 0 [some 0] else h).next = h.next := by
  cases t with
  | nil =>
    have hstore : h.store (some id) 0 [some 0] =
        h.set id (some (splice (z :: rest) 0 [some 0])) := store_eq hcells (by simp)
    rw [if_pos (by simpa using hlen)]
    refine ⟨?_, frame_store h _ _ _, ?_, ?_⟩
    · rw [hstore, blocks_set]
      rfl
    · rw [hstore]
      rfl
    · rw [hstore]
      rfl
  | cons c t =>
    rw [if_neg (by rw [hlen]; simp), hcells, hz (List.cons_ne_nil c t)]
    exact ⟨rfl, Frame.refl h _, rfl, rfl⟩

/-- **Reserve**: a safe call keeps the text. -/
theorem reserve_spec (hh : s.Holds h t) (hs : s.ReserveSafe size out) :
    Reserved s h t size out (s.reserve h size out) := by
  by_cases henough : s.capacity ≥ size ∧ s.buffer.isSome = true
  · rw [reserve_enough henough]
    exact ⟨.refl hh true, fun _ => henough, fun _ _ => rfl⟩
  cases hnull : out.isNull with
  | true =>
    have hkeep : (size + 1) % 2 ^ 32 ≠ 0 ∨ out = .fails ∨ s.buffer = none := by
      rcases hs with henough' | hlt | hfails | ⟨-, hb⟩
      · exact absurd henough' henough
      · exact Or.inl (by omega)
      · exact Or.inr (Or.inl hfails)
      · exact Or.inr (Or.inr hb)
    rw [reserve_null henough (realloc_null hnull hkeep)]
    exact ⟨.refl hh false, fun hok => absurd hok Bool.false_ne_true, fun _ _ => rfl⟩
  | false =>
    have hlt : size + 1 < 2 ^ 32 := by
      rcases hs with henough' | hlt | rfl | ⟨rfl, -⟩
      · exact absurd henough' henough
      · exact hlt
      · cases hnull
      · cases hnull
    obtain ⟨id, h', hr, hcells, hfault, hid⟩ :=
      realloc_some hnull hh.isSome_block ((size + 1) % 2 ^ 32)
    have hframe : Frame h h' s.buffer := by
      have hf := frame_realloc h s.buffer ((size + 1) % 2 ^ 32) out
      rwa [hr] at hf
    obtain ⟨z, rest, hresize, hsize, hz⟩ := hh.resize_eq henough
    rw [Nat.mod_eq_of_lt hlt, hresize] at hcells
    rw [reserve_some henough hr]
    obtain ⟨hblock, hframe', hfault', hnext⟩ := terminated hcells hz hh.length
    refine ⟨⟨⟨hh.length, Or.inr ⟨id, rest, rfl, hblock, hsize, hlt⟩⟩, ?_, ?_, fun id' hid' => ?_⟩,
      fun _ => ?_, fun hb hstay => ?_⟩
    · refine hframe.trans hframe' fun j hj heq => ?_
      obtain rfl := Option.some.inj heq
      rcases hid with hb | ⟨⟨hle, -⟩, -⟩
      · exact hb
      · omega
    · exact hfault'.trans hfault
    · obtain rfl := Option.some.inj hid'
      rcases hid with hb | ⟨hnew, -⟩
      · exact Or.inl hb
      · rw [← hnext] at hnew
        exact Or.inr hnew
    · exact ⟨Nat.le_refl _, rfl⟩
    · rcases hid with hsame | ⟨-, hnone | rfl⟩
      · exact hsame.symm
      · rw [hnone] at hb
        cases hb
      · rcases hstay with hle | hne
        · exact absurd ⟨hle, hb⟩ henough
        · exact absurd rfl hne

/-! ## Copying text -/

/-- The pointer goes to `d`: outside of the string, or inside of its text. -/
structure Source (s : WString) (h : Heap UInt8) (t : List UInt8) (value : Ptr UInt8)
    (d : List UInt8) : Prop where
  read : h.read value d.length = some (d.map some)
  known : ∀ id k, value = .block id k → id < h.next
  own : ∀ id k, value = .block id k → s.buffer = some id →
    k ≤ t.length ∧ ∃ post, t.drop k = d ++ post

theorem source_static {rest : List UInt8} : Source s h t (.static (d ++ rest)) d :=
  ⟨by simp [Heap.read], fun _ _ h => (by cases h), fun _ _ h => (by cases h)⟩

theorem read_part {id k : Nat} {post : List UInt8} {rest : List (Option UInt8)}
    (hcells : h.blocks id = some (t.map some ++ some 0 :: rest)) (hle : k ≤ t.length)
    (hpost : t.drop k = d ++ post) : h.read (.block id k) d.length = some (d.map some) := by
  have hk : (t.drop k).length = d.length + post.length := by rw [hpost, List.length_append]
  rw [List.length_drop] at hk
  simp only [Heap.read, hcells, Option.bind_some]
  rw [if_pos (by simp; omega), List.drop_append_of_le_length (by simpa using hle),
    ← List.map_drop, hpost, List.map_append, List.append_assoc,
    List.take_left' (List.length_map some)]

theorem Source.own_end (hsrc : Source s h t value d) {id k : Nat} (hvalue : value = .block id k)
    (hb : s.buffer = some id) : k + d.length ≤ t.length := by
  obtain ⟨hle, post, hpost⟩ := hsrc.own id k hvalue hb
  have hk : (t.drop k).length = d.length + post.length := by rw [hpost, List.length_append]
  rw [List.length_drop] at hk
  omega

theorem Source.buffer (hsrc : Source s h t value d) {t' : List UInt8} (hk : Keeps s h t' r)
    {id k : Nat} (hvalue : value = .block id k) (hb : r.str.buffer = some id) :
    s.buffer = some id := by
  have hknown := hsrc.known id k hvalue
  rcases hk.buffer id hb with hold | ⟨hle, -⟩
  · exact hold
  · omega

/-- The pointer still goes to `d` when there is room, unless its block has been moved. -/
theorem Source.read_reserved (hsrc : Source s h t value d) (hr : Reserved s h t size out r)
    (hown : s.Own value → r.str.buffer = s.buffer) :
    r.heap.read value d.length = some (d.map some) := by
  by_cases howns : s.Own value
  · obtain ⟨id, k, rfl, hb⟩ := howns
    obtain ⟨hle, post, hpost⟩ := hsrc.own id k rfl hb
    obtain ⟨rest, hcells, -⟩ := hr.holds.block ((hown ⟨id, k, rfl, hb⟩).trans hb)
    exact read_part hcells hle hpost
  · rw [← hsrc.read]
    refine read_of_frame hr.frame fun id k hvalue => ⟨hsrc.known id k hvalue, fun hb => ?_⟩
    exact howns ⟨id, k, hvalue, hb⟩

/-- The text is copied behind the first `off` bytes, with its NUL. -/
theorem Holds.put (hh : s.Holds h t) (hb : s.buffer.isSome = true) (hoff : off ≤ t.length)
    (hroom : off + d.length ≤ s.capacity) (hr : h.read value d.length = some (d.map some))
    (hno : ¬ Overlaps s.buffer off value d.length) :
    Keeps s h (t.take off ++ d) (s.put h value off d.length (off + d.length)) := by
  obtain ⟨id, hid⟩ := Option.isSome_iff_exists.mp hb
  obtain ⟨rest, hcells, hcap, hlt⟩ := hh.block hid
  have hfit : off + d.length + 1 ≤ (t.map some ++ some 0 :: rest).length := by
    simp only [List.length_append, List.length_map, List.length_cons]
    omega
  have hframe : Frame h (s.put h value off d.length (off + d.length)).heap s.buffer :=
    (frame_memcpy h _ off value _).trans (frame_store _ _ _ _) fun _ _ hp => hp
  rw [hid] at hno
  unfold WString.put at hframe ⊢
  rw [hid, store_memcpy hno hr hcells hfit] at hframe ⊢
  refine ⟨⟨by simp [hoff], Or.inr ⟨id, (t.map some ++ some 0 :: rest).drop (off + d.length + 1),
    rfl, ?_, ?_, hlt⟩⟩, hid.symm ▸ hframe, rfl, fun id' hid' => Or.inl (hid.trans hid')⟩
  · rw [blocks_set, List.take_append_of_le_length (by simpa using hoff), ← List.map_take,
      List.map_append, List.append_assoc]
  · simp only [List.length_append, List.length_take, List.length_drop, List.length_map,
      List.length_cons]
    omega

theorem Keeps.trans {t' : List UInt8} {r' : Done} (h1 : Keeps s h t r)
    (h2 : Keeps r.str r.heap t' r') : Keeps s h t' r' := by
  refine ⟨h2.holds, h1.frame.trans h2.frame fun id hid heq => ?_, h2.fault.trans h1.fault,
    fun id hb => ?_⟩
  · rcases h1.buffer id heq with hold | ⟨hle, -⟩
    · exact hold
    · omega
  · rcases h2.buffer id hb with hmid | ⟨hle, hlt⟩
    · rcases h1.buffer id hmid with hold | ⟨hle, hlt⟩
      · exact Or.inl hold
      · exact Or.inr ⟨hle, Nat.lt_of_lt_of_le hlt h2.frame.next⟩
    · exact Or.inr ⟨Nat.le_trans h1.frame.next hle, hlt⟩

theorem overlaps_iff : Overlaps s.buffer off value n ↔
    ∃ id k, value = .block id k ∧ s.buffer = some id ∧ off < k + n ∧ k < off + n := by
  cases value with
  | static cells => exact iff_of_false id (by simp)
  | block id k =>
    constructor
    · rintro ⟨hb, hlt⟩
      exact ⟨id, k, rfl, hb, hlt⟩
    · rintro ⟨id', k', heq, hb, hlt⟩
      cases heq
      exact ⟨hb, hlt⟩

theorem Source.own_le (hsrc : Source s h t value d) (hh : s.Holds h t) (howns : s.Own value) :
    s.capacity ≥ d.length ∧ s.buffer.isSome = true := by
  obtain ⟨id, k, rfl, hb⟩ := howns
  have hend := hsrc.own_end rfl hb
  have hroom := hh.shows.room (by rw [hb]; rfl)
  rw [hh.length] at hroom
  exact ⟨by omega, by rw [hb]; rfl⟩

theorem assign_ok (hok : (s.reserve h n out).ok = true) : s.assign h value n out =
    (s.reserve h n out).str.put (s.reserve h n out).heap value 0 n n := if_pos hok

theorem assign_failed (hok : (s.reserve h n out).ok = false) :
    s.assign h value n out = s.reserve h n out := if_neg (by rw [hok]; exact Bool.false_ne_true)

/-- **Assign**: a safe call that returns true leaves the new text, and the old one otherwise. -/
theorem assign_spec (hh : s.Holds h t) (hsrc : Source s h t value d)
    (hs : s.AssignSafe value d.length out) :
    Keeps s h (if (s.assign h value d.length out).ok then d else t)
      (s.assign h value d.length out) := by
  obtain ⟨hsafe, hno⟩ := hs
  have hr := reserve_spec hh hsafe
  have hown : s.Own value → (s.reserve h d.length out).str.buffer = s.buffer := fun howns => by
    have henough := hsrc.own_le hh howns
    exact hr.stays henough.2 (Or.inl henough.1)
  cases hok : (s.reserve h d.length out).ok with
  | false =>
    rw [assign_failed hok, hok]
    exact hr.toKeeps
  | true =>
    have hread := hsrc.read_reserved hr hown
    obtain ⟨hroom, hb⟩ := hr.room hok
    have hno' : ¬ Overlaps (s.reserve h d.length out).str.buffer 0 value d.length := by
      intro hover
      obtain ⟨id, k, hvalue, hid, hlt⟩ := overlaps_iff.mp hover
      exact hno (overlaps_iff.mpr ⟨id, k, hvalue, hsrc.buffer hr.toKeeps hvalue hid, hlt⟩)
    have hput := hr.holds.put hb (Nat.zero_le _) (by omega) hread hno'
    rw [Nat.zero_add] at hput
    rw [assign_ok hok]
    exact hr.toKeeps.trans hput

/-! ## Concatenation -/

theorem concat_ok (hn : n ≠ 0) (hlt : s.length + n < 2 ^ 32)
    (hok : (s.reserve h (s.length + n) out).ok = true) : s.concat h (some value) n out =
      (s.reserve h (s.length + n) out).str.put (s.reserve h (s.length + n) out).heap value
        (s.reserve h (s.length + n) out).str.length n (s.length + n) := by
  simp only [concat, if_neg hn, Nat.mod_eq_of_lt hlt, hok, if_true]

theorem concat_failed (hn : n ≠ 0) (hlt : s.length + n < 2 ^ 32)
    (hok : (s.reserve h (s.length + n) out).ok = false) :
    s.concat h (some value) n out = s.reserve h (s.length + n) out := by
  simp only [concat, if_neg hn, Nat.mod_eq_of_lt hlt, hok, Bool.false_eq_true, if_false]

/-- **Concat**: a safe call that returns true appends the text. -/
theorem concat_spec (hh : s.Holds h t) (hsrc : Source s h t value d)
    (hs : s.ConcatSafe (some value) d.length out) :
    Keeps s h (if (s.concat h (some value) d.length out).ok then t ++ d else t)
      (s.concat h (some value) d.length out) := by
  by_cases hn : d.length = 0
  · have hd : d = [] := List.length_eq_zero_iff.mp hn
    subst hd
    simp only [concat, List.length_nil, if_true, List.append_nil, ite_self]
    exact .refl hh true
  obtain ⟨hlt, hsafe, hmove⟩ := hs value rfl hn
  have hr := reserve_spec hh hsafe
  have hown : s.Own value → (s.reserve h (s.length + d.length) out).str.buffer = s.buffer :=
    fun howns => by
      refine hr.stays (hsrc.own_le hh howns).2 ?_
      by_cases hout : out = .moves
      · exact Or.inl (hmove howns hout)
      · exact Or.inr hout
  cases hok : (s.reserve h (s.length + d.length) out).ok with
  | false =>
    rw [concat_failed hn hlt hok, hok]
    exact hr.toKeeps
  | true =>
    have hread := hsrc.read_reserved hr hown
    obtain ⟨hroom, hb⟩ := hr.room hok
    have hlen : (s.reserve h (s.length + d.length) out).str.length = t.length := hr.holds.length
    have hno : ¬ Overlaps (s.reserve h (s.length + d.length) out).str.buffer
        (s.reserve h (s.length + d.length) out).str.length value d.length := by
      intro hover
      -- its own text ends where the copy begins
      obtain ⟨id, k, hvalue, hid, hlt', -⟩ := overlaps_iff.mp hover
      have hend := hsrc.own_end hvalue (hsrc.buffer hr.toKeeps hvalue hid)
      omega
    have hput := hr.holds.put hb (by omega) (by rw [hlen, ← hh.length]; exact hroom) hread hno
    rw [hlen, List.take_length, ← hh.length] at hput
    rw [concat_ok hn hlt hok, hlen, ← hh.length]
    exact hr.toKeeps.trans hput

/-! ## Unsafe calls -/

/-- The string is not usable any more, or memory has been misused. -/
def Broken (r : Done) : Prop := r.heap.fault = true ∨ ∀ t, ¬ r.str.Shows r.heap t

/-- Null for a released block, or a block without a byte. -/
theorem reserve_wrapped (hh : s.Holds h t) (hlt : size < 2 ^ 32) (hs : ¬ s.ReserveSafe size out) :
    ((s.reserve h size out).ok = false → Broken (s.reserve h size out)) ∧
    ((s.reserve h size out).ok = true → (s.reserve h size out).heap.fault = true ∨
      ∃ id, (s.reserve h size out).str.buffer = some id ∧
        (s.reserve h size out).heap.blocks id = some []) := by
  obtain ⟨hmore, hbig, hfails, hfrees⟩ : ¬ (s.capacity ≥ size ∧ s.buffer.isSome = true) ∧
      ¬ size + 1 < 2 ^ 32 ∧ out ≠ .fails ∧ ¬ (out = .frees ∧ s.buffer = none) := by
    simpa only [ReserveSafe, not_or] using hs
  have hzero : (size + 1) % 2 ^ 32 = 0 := by omega
  cases hnull : out.isNull with
  | true =>
    have hout : out = .frees := by
      cases out with
      | fails => exact absurd rfl hfails
      | frees => rfl
      | inPlace | moves => cases hnull
    subst hout
    obtain ⟨id, hb⟩ : ∃ id, s.buffer = some id :=
      Option.ne_none_iff_exists'.mp fun hnone => hfrees ⟨rfl, hnone⟩
    obtain ⟨cells, hcells⟩ := Option.isSome_iff_exists.mp (hh.isSome_block id hb)
    obtain ⟨hfst, hsnd⟩ := realloc_frees hcells
    have hr : h.realloc s.buffer ((size + 1) % 2 ^ 32) .frees =
        (none, (h.realloc (some id) 0 .frees).2) := by
      rw [hzero, hb, ← hfst]
    rw [reserve_null hmore hr]
    refine ⟨fun _ => Or.inr fun t' hshows => ?_, fun hok => absurd hok Bool.false_ne_true⟩
    obtain ⟨rest, htext⟩ := hshows.cStr
    simp only [text, hb, hsnd] at htext
    cases htext
  | false =>
    obtain ⟨id, h', hr, hcells, -, -⟩ := realloc_some hnull hh.isSome_block ((size + 1) % 2 ^ 32)
    rw [hzero] at hcells
    rw [reserve_some hmore hr]
    refine ⟨fun hok => absurd hok.symm Bool.false_ne_true, fun _ => ?_⟩
    have hempty : h'.blocks id = some [] := by rw [hcells]; simp [resize]
    dsimp only
    split
    · refine Or.inl (fault_store fun id' cells hid' hcells' => ?_)
      obtain rfl := Option.some.inj hid'
      rw [hempty] at hcells'
      cases hcells'
      exact Nat.zero_lt_succ _
    · exact Or.inr ⟨id, rfl, hempty⟩

theorem broken_of_empty {id : Nat} (hb : r.str.buffer = some id)
    (hempty : r.heap.blocks id = some []) : Broken r := by
  refine Or.inr fun t hshows => ?_
  obtain ⟨rest, htext⟩ := hshows.cStr
  simp [text, hb, hempty] at htext

theorem reserve_broken (hh : s.Holds h t) (hlt : size < 2 ^ 32) (hs : ¬ s.ReserveSafe size out) :
    Broken (s.reserve h size out) := by
  obtain ⟨hfalse, htrue⟩ := reserve_wrapped hh hlt hs
  cases hok : (s.reserve h size out).ok with
  | false => exact hfalse hok
  | true =>
    rcases htrue hok with hfault | ⟨id, hb, hempty⟩
    · exact Or.inl hfault
    · exact broken_of_empty hb hempty

theorem put_fault {k : Nat} (hf : (h.memcpy s.buffer off value n).fault = true) :
    (s.put h value off n k).heap.fault = true :=
  (frame_store _ s.buffer k [some 0]).fault hf

/-- Nothing can be put into a string that `reserve` has broken. -/
theorem put_wrapped {k : Nat} (hn : n ≠ 0) (hbad : h.fault = true ∨
    ∃ id, s.buffer = some id ∧ h.blocks id = some []) :
    (s.put h value off n k).heap.fault = true := by
  refine put_fault ?_
  rcases hbad with hf | ⟨id, hb, hempty⟩
  · exact (frame_memcpy h _ _ _ _).fault hf
  · refine fault_memcpy fun id' cells hid' hcells => ?_
    obtain rfl := Option.some.inj (hb.symm.trans hid')
    rw [hempty] at hcells
    cases hcells
    exact Nat.lt_of_lt_of_le (Nat.pos_of_ne_zero hn) (Nat.le_add_left _ _)

theorem assign_broken (hh : s.Holds h t) (hsrc : Source s h t value d) (hlt : d.length < 2 ^ 32)
    (hs : ¬ s.AssignSafe value d.length out) : Broken (s.assign h value d.length out) := by
  by_cases hsafe : s.ReserveSafe d.length out
  · -- the text lies over its destination, which has room for it
    have hover : Overlaps s.buffer 0 value d.length := by
      by_contra hno
      exact hs ⟨hsafe, hno⟩
    obtain ⟨id, k, hvalue, hb, -⟩ := overlaps_iff.mp hover
    have henough := hsrc.own_le hh ⟨id, k, hvalue, hb⟩
    have hr : s.reserve h d.length out = ⟨true, s, h⟩ := reserve_enough henough
    rw [assign_ok (by rw [hr]), hr]
    refine Or.inl (put_fault ?_)
    rw [memcpy, if_pos hover]
    rfl
  · obtain ⟨hfalse, htrue⟩ := reserve_wrapped hh hlt hsafe
    cases hok : (s.reserve h d.length out).ok with
    | false =>
      rw [assign_failed hok]
      exact hfalse hok
    | true =>
      rw [assign_ok hok]
      refine Or.inl (put_wrapped (fun hzero => hsafe (Or.inr (Or.inl ?_))) (htrue hok))
      rw [hzero]
      decide

/-- The new length wraps around: there seems to be room, but there is not. -/
theorem concat_broken_of_wrap (hh : s.Holds h t) (hlt : n < 2 ^ 32)
    (hwrap : 2 ^ 32 ≤ s.length + n) : Broken (s.concat h (some value) n out) := by
  rcases hh.stored with ⟨-, rfl⟩ | ⟨id, rest, hb, hcells, hcap, hsmall⟩
  · have hlen : s.length = 0 := hh.length
    omega
  · have hlen := hh.length
    have hn : n ≠ 0 := by omega
    have hr : s.reserve h ((s.length + n) % 2 ^ 32) out = ⟨true, s, h⟩ :=
      reserve_enough ⟨by omega, by rw [hb]; rfl⟩
    simp only [concat, if_neg hn, hr, if_true]
    refine Or.inl (put_fault (fault_memcpy fun id' cells hid' hcells' => ?_))
    obtain rfl := Option.some.inj (hb.symm.trans hid')
    obtain rfl := Option.some.inj (hcells.symm.trans hcells')
    simp only [List.length_append, List.length_map, List.length_cons]
    omega

/-- The string's own text is read from the block that `realloc` has released. -/
theorem concat_broken_of_moves (hh : s.Holds h t) (hsrc : Source s h t value d)
    (hn : d.length ≠ 0) (hlt : s.length + d.length < 2 ^ 32) (howns : s.Own value)
    (hmore : s.capacity < s.length + d.length) :
    Broken (s.concat h (some value) d.length .moves) := by
  have hroom := (hsrc.own_le hh howns).1
  obtain ⟨id, k, hvalue, hb⟩ := howns
  obtain ⟨cells, hcells⟩ := Option.isSome_iff_exists.mp (hh.isSome_block id hb)
  have hfull : ¬ (s.capacity ≥ s.length + d.length ∧ s.buffer.isSome = true) := fun h => by omega
  obtain ⟨id', h', hr, -⟩ :=
    realloc_some (by decide : Realloc.moves.isNull = false) hh.isSome_block
      ((s.length + d.length + 1) % 2 ^ 32)
  have hgone : h'.blocks id = none := by
    have hmoved := realloc_moves hcells (hsrc.known id k hvalue)
      ((s.length + d.length + 1) % 2 ^ 32)
    rwa [← hb, hr] at hmoved
  have hend := hsrc.own_end hvalue hb
  have hlen : s.length ≠ 0 := by
    rw [hh.length]
    omega
  have hres : s.reserve h (s.length + d.length) .moves =
      ⟨true, ⟨some id', s.length + d.length, s.length⟩, h'⟩ := by
    rw [reserve_some hfull hr, if_neg hlen]
  rw [concat_ok hn hlt (by rw [hres]), hres]
  refine Or.inl (put_fault (fault_memcpy_of_read ?_))
  simp only [hvalue, Heap.read, hgone, Option.bind_none]

theorem concat_broken (hh : s.Holds h t) (hsrc : Source s h t value d) (hlt : d.length < 2 ^ 32)
    (hs : ¬ s.ConcatSafe (some value) d.length out) :
    Broken (s.concat h (some value) d.length out) := by
  have hn : d.length ≠ 0 := fun hzero => hs fun p hp hne => absurd hzero hne
  by_cases hwrap : s.length + d.length < 2 ^ 32
  · by_cases hsafe : s.ReserveSafe (s.length + d.length) out
    · obtain ⟨howns, rfl, hmore⟩ : s.Own value ∧ out = .moves ∧
          s.capacity < s.length + d.length := by
        by_contra hcon
        refine hs fun p hp _ => ⟨hwrap, hsafe, fun howns hout => ?_⟩
        obtain rfl := Option.some.inj hp
        by_contra hle
        exact hcon ⟨howns, hout, Nat.not_le.mp hle⟩
      exact concat_broken_of_moves hh hsrc hn hwrap howns hmore
    · obtain ⟨hfalse, htrue⟩ := reserve_wrapped hh hwrap hsafe
      cases hok : (s.reserve h (s.length + d.length) out).ok with
      | false =>
        rw [concat_failed hn hwrap hok]
        exact hfalse hok
      | true =>
        rw [concat_ok hn hwrap hok]
        exact Or.inl (put_wrapped hn (htrue hok))
  · exact concat_broken_of_wrap hh hlt (Nat.not_lt.mp hwrap)

/-! ## Arguments that may be null -/

theorem concat_arg_spec {p : Option (Ptr UInt8)} (hh : s.Holds h t)
    (hsrc : ∀ value, p = some value → Source s h t value d)
    (hs : s.ConcatSafe p d.length out) :
    Keeps s h (if (s.concat h p d.length out).ok then t ++ d else t)
      (s.concat h p d.length out) := by
  cases p with
  | none => exact Keeps.refl hh false
  | some value => exact concat_spec hh (hsrc value rfl) hs

theorem concat_arg_broken {p : Option (Ptr UInt8)} (hh : s.Holds h t)
    (hsrc : ∀ value, p = some value → Source s h t value d) (hlt : d.length < 2 ^ 32)
    (hs : ¬ s.ConcatSafe p d.length out) : Broken (s.concat h p d.length out) := by
  cases p with
  | none => exact absurd (fun _ hp => by cases hp) hs
  | some value => exact concat_broken hh (hsrc value rfl) hlt hs

/-! ## New strings -/

theorem init_full (n : Nat) : ¬ (init.capacity ≥ n ∧ init.buffer.isSome = true) :=
  fun h => Bool.false_ne_true h.2

theorem reserve_init (hnull : out.isNull = false) (h : Heap UInt8) (n : Nat) :
    (init.reserve h n out).ok = true ∧
      (init.reserve h n out).str = ⟨some h.next, n, 0⟩ := by
  have hr : (h.realloc init.buffer ((n + 1) % 2 ^ 32) out) =
      (some h.next, (h.malloc (resize [] ((n + 1) % 2 ^ 32))).2) := by
    cases out with
    | fails | frees => cases hnull
    | inPlace | moves => rfl
  rw [reserve_some (init_full n) hr]
  exact ⟨rfl, rfl⟩

theorem assign_init_null (hnull : out.isNull = true) (value : Ptr UInt8) (h : Heap UInt8)
    (n : Nat) : init.assign h value n out = ⟨false, init, h⟩ := by
  have hr := reserve_null (init_full n) (realloc_null hnull (Or.inr (Or.inr rfl)) :
    h.realloc init.buffer ((n + 1) % 2 ^ 32) out = (none, h))
  rw [assign_failed (by rw [hr]), hr]

/-- A constructor makes a block of just the size, or leaves the string empty. -/
theorem assign_init (value : Ptr UInt8) (h : Heap UInt8) (n : Nat) (out : Realloc) :
    (init.assign h value n out).ok = !out.isNull ∧
      (init.assign h value n out).str = if out.isNull then init else ⟨some h.next, n, n⟩ := by
  cases hnull : out.isNull with
  | true =>
    rw [assign_init_null hnull]
    exact ⟨rfl, rfl⟩
  | false =>
    obtain ⟨hok, hstr⟩ := reserve_init hnull h n
    rw [assign_ok hok]
    exact ⟨rfl, by simp only [put, hstr, Bool.false_eq_true, if_false]⟩

theorem assign_init_fault (hlt : n < 2 ^ 32) (hs : ¬ init.AssignSafe value n out) :
    out.isNull = false ∧ (init.assign h value n out).heap.fault = true := by
  have hno : ¬ Overlaps init.buffer 0 value n := fun hover => by
    obtain ⟨_, _, _, hb, -⟩ := overlaps_iff.mp hover
    cases hb
  have hsafe : ¬ init.ReserveSafe n out := fun h => hs ⟨h, hno⟩
  have hnull : out.isNull = false := by
    cases out with
    | fails => exact absurd (Or.inr (Or.inr (Or.inl rfl))) hsafe
    | frees => exact absurd (Or.inr (Or.inr (Or.inr ⟨rfl, rfl⟩))) hsafe
    | inPlace | moves => rfl
  have hok := (reserve_init hnull h n).1
  rw [assign_ok hok]
  refine ⟨hnull, put_wrapped (fun hzero => hsafe (Or.inr (Or.inl ?_)))
    ((reserve_wrapped (holds_init h) hlt hsafe).2 hok)⟩
  rw [hzero]
  decide

theorem Source.after {t' : List UInt8} (hsrc : Source init h [] value d)
    (hk : Keeps init h t' r) : Source r.str r.heap t' value d := by
  refine ⟨?_, fun id k hvalue => Nat.lt_of_lt_of_le (hsrc.known id k hvalue) hk.frame.next,
    fun id k hvalue hb => ?_⟩
  · rw [← hsrc.read]
    exact read_of_frame hk.frame fun id k hvalue => ⟨hsrc.known id k hvalue, by rintro ⟨⟩⟩
  · have hinit := hsrc.buffer hk hvalue hb
    cases hinit

theorem fault_reserve (hf : h.fault = true) : (s.reserve h size out).heap.fault = true := by
  have hframe := frame_realloc h s.buffer ((size + 1) % 2 ^ 32) out
  unfold reserve
  split
  · exact hf
  · split
    · next hr =>
      rw [hr] at hframe
      exact hframe.fault hf
    · next hr =>
      rw [hr] at hframe
      dsimp only
      split
      · exact (frame_store _ _ _ _).fault (hframe.fault hf)
      · exact hframe.fault hf

theorem fault_concat {p : Option (Ptr UInt8)} (hf : h.fault = true) :
    (s.concat h p n out).heap.fault = true := by
  unfold concat
  split
  · exact hf
  · split
    · exact hf
    · dsimp only
      split
      · exact put_fault ((frame_memcpy _ _ _ _ _).fault (fault_reserve hf))
      · exact fault_reserve hf

/-! ## Numbers -/

theorem Holds.of_frame {h' : Heap UInt8} {p : Option Nat} (hh : s.Holds h t) (hf : Frame h h' p)
    (hs : ∀ id, s.buffer = some id → id < h.next ∧ p ≠ some id) : s.Holds h' t := by
  refine ⟨hh.length, ?_⟩
  rcases hh.stored with hnone | ⟨id, rest, hb, hcells, hcap⟩
  · exact Or.inl hnone
  · obtain ⟨hlt, hne⟩ := hs id hb
    exact Or.inr ⟨id, rest, hb, (hf.blocks id hlt hne).trans hcells, hcap⟩

theorem Holds.drop (hh : s.Holds h t) : Keeps s h [] ⟨true, init, h.free s.buffer⟩ :=
  ⟨holds_init _, frame_free h _, fault_free hh.isSome_block, fun _ hb => (by cases hb)⟩

theorem Keeps.free {p : Option Nat} (hk : Keeps s h t r) (hp : ∀ id, p = some id →
    h.next ≤ id ∧ r.str.buffer ≠ some id ∧ (r.heap.blocks id).isSome = true) :
    Keeps s h t { r with heap := r.heap.free p } := by
  refine ⟨?_, hk.frame.trans (frame_free r.heap p) fun id hid heq => ?_,
    (fault_free fun id hid => (hp id hid).2.2).trans hk.fault, fun id hb => ?_⟩
  · rcases hk.holds.stored with hnone | ⟨id, rest, hb, hcells, hcap⟩
    · exact ⟨hk.holds.length, Or.inl hnone⟩
    · refine ⟨hk.holds.length, Or.inr ⟨id, rest, hb, ?_, hcap⟩⟩
      exact (blocks_free_of_ne fun heq => (hp id heq).2.1 hb).trans hcells
  · have hle := (hp id heq).1
    omega
  · rcases hk.buffer id hb with hold | ⟨hle, hlt⟩
    · exact Or.inl hold
    · exact Or.inr ⟨hle, Nat.lt_of_lt_of_le hlt (frame_free r.heap p).next⟩

theorem number_held (d : List UInt8) (h : Heap UInt8)
    (hs : d ≠ [] → out.isNull = false ∧ init.AssignSafe (.static (d ++ [0])) d.length out) :
    Keeps init h d (init.assign h (.static (d ++ [0])) d.length out) := by
  by_cases hd : d = []
  · subst hd
    have hsafe : init.AssignSafe (.static ([] ++ [0])) 0 out :=
      ⟨Or.inr (Or.inl (by decide)), fun hover => hover⟩
    have hkeep := assign_spec (holds_init h) source_static hsafe
    rwa [ite_self] at hkeep
  · obtain ⟨hnull, hsafe⟩ := hs hd
    have hkeep := assign_spec (holds_init h) source_static hsafe
    rwa [(assign_init _ h _ out).1, hnull] at hkeep

/-- A string that is made holds its text where nothing was before. -/
theorem Source.made {t' : List UInt8} (hk : Keeps init h d r)
    (hold : ∀ id, s.buffer = some id → id < h.next) : Source s r.heap t' (r.str.cStr 0) d := by
  rcases hk.holds.stored with ⟨hb, rfl⟩ | ⟨id, rest, hb, hcells, -⟩
  · have hvalue : r.str.cStr 0 = .static ([] ++ [0]) := by simp [cStr, hb]
    rw [hvalue]
    exact source_static
  · have hvalue : r.str.cStr 0 = .block id 0 := by simp [cStr, hb]
    have hnew : h.next ≤ id ∧ id < r.heap.next := (hk.buffer id hb).resolve_left (by rintro ⟨⟩)
    rw [hvalue]
    refine ⟨read_part hcells (Nat.zero_le _) (List.append_nil d).symm, fun id' k heq => ?_,
      fun id' k heq hb' => ?_⟩
    · cases heq
      exact hnew.2
    · cases heq
      have hlt := hold id hb'
      omega

theorem not_own_made (hk : Keeps init h d r) (hold : ∀ id, s.buffer = some id → id < h.next) :
    ¬ s.Own (r.str.cStr 0) := by
  rintro ⟨id, k, hvalue, hb⟩
  have hlt := hold id hb
  cases hb' : r.str.buffer with
  | none =>
    simp only [cStr, hb'] at hvalue
    cases hvalue
  | some id' =>
    simp only [cStr, hb'] at hvalue
    cases hvalue
    have hnew := (hk.buffer id hb').resolve_left (by rintro ⟨⟩)
    omega

theorem concatTemp_eq (hlen : r.str.length = n) : s.concatTemp r out =
    { s.concat r.heap (some (r.str.cStr 0)) n out with
      heap := (s.concat r.heap (some (r.str.cStr 0)) n out).heap.free r.str.buffer } := by
  subst hlen
  rfl

theorem ConcatSafe.of_not_own {p q : Ptr UInt8} (hs : s.ConcatSafe (some p) n out)
    (hq : ¬ s.Own q) : s.ConcatSafe (some q) n out := by
  intro p' hp' hn
  obtain rfl := Option.some.inj hp'
  obtain ⟨hlt, hres, -⟩ := hs p rfl hn
  exact ⟨hlt, hres, fun howns => absurd howns hq⟩

theorem Keeps.destroy {made : Done} {t' : List UInt8} (hmade : Keeps init h d made)
    (hk : Keeps s made.heap t' r) (hold : ∀ id, s.buffer = some id → id < h.next) :
    Keeps s h t' { r with heap := r.heap.free made.str.buffer } := by
  have hall : Keeps s h t' r := by
    refine ⟨hk.holds, (hmade.frame.of_none s.buffer).trans hk.frame fun _ _ h => h,
      hk.fault.trans hmade.fault, fun id hb => ?_⟩
    rcases hk.buffer id hb with hs | ⟨hle, hlt⟩
    · exact Or.inl hs
    · exact Or.inr ⟨Nat.le_trans hmade.frame.next hle, hlt⟩
  refine hall.free fun id hid => ?_
  have hnew := (hmade.buffer id hid).resolve_left (by rintro ⟨⟩)
  have hs : s.buffer ≠ some id := fun hb => by
    have hlt := hold id hb
    omega
  refine ⟨hnew.1, fun hb => ?_, ?_⟩
  · rcases hk.buffer id hb with hb' | ⟨hle, -⟩
    · exact hs hb'
    · omega
  · rw [hk.frame.blocks id hnew.2 hs]
    exact hmade.holds.isSome_block id hid

/-- **Numbers**: a safe call that returns true appends the text of the number. -/
theorem concatNumber_spec {temp : Realloc} (hh : s.Holds h t)
    (hold : ∀ id, s.buffer = some id → id < h.next) (hs : s.NumberSafe d temp out) :
    Keeps s h (if (s.concatNumber h d temp out).ok then t ++ d else t)
      (s.concatNumber h d temp out) := by
  have hmade := number_held d h fun hd => ⟨(hs hd).1, (hs hd).2.1⟩
  have hsafe : s.ConcatSafe (some (.static (d ++ [0]))) d.length out := by
    by_cases hd : d = []
    · exact fun _ _ hn => absurd (by rw [hd]; rfl) hn
    · exact (hs hd).2.2
  have hh' := hh.of_frame hmade.frame fun id hb => ⟨hold id hb, by rintro ⟨⟩⟩
  have hcat := concat_spec hh' (Source.made hmade hold) (hsafe.of_not_own (not_own_made hmade hold))
  unfold concatNumber
  rw [concatTemp_eq hmade.holds.length]
  exact hmade.destroy hcat hold

theorem Shows.of_free {p : Option Nat} (hs : s.Shows (h.free p) t) : s.Shows h t := by
  obtain ⟨rest, htext⟩ := hs.cStr
  have heq : s.text h = s.text (h.free p) := by
    cases hb : s.buffer with
    | none => simp only [text, hb]
    | some id =>
      simp only [text, hb] at htext ⊢
      rw [htext]
      exact blocks_free htext
  refine ⟨hs.room, hs.length, ⟨rest, heq.trans htext⟩, fun k => ?_⟩
  have hk := hs.index k
  unfold WString.index at hk ⊢
  rwa [heq]

theorem Broken.free {p : Option Nat} (hr : Broken r) :
    Broken { r with heap := r.heap.free p } := by
  rcases hr with hf | hnot
  · exact Or.inl ((frame_free _ _).fault hf)
  · exact Or.inr fun t hs => hnot t hs.of_free

/-- A number without memory is not appended, with true; other unsafe calls break the string. -/
theorem concatNumber_broken {temp : Realloc} (hh : s.Holds h t)
    (hold : ∀ id, s.buffer = some id → id < h.next) (hlt : d.length < 2 ^ 32)
    (hs : ¬ s.NumberSafe d temp out) : d ≠ [] ∧
      (s.concatNumber h d temp out = ⟨true, s, h⟩ ∨ Broken (s.concatNumber h d temp out)) := by
  have hd : d ≠ [] := fun hd => hs fun hne => absurd hd hne
  refine ⟨hd, ?_⟩
  cases hnull : temp.isNull with
  | true =>
    refine Or.inl ?_
    unfold concatNumber
    rw [assign_init_null hnull]
    rfl
  | false =>
    refine Or.inr ?_
    by_cases hsafe : init.AssignSafe (.static (d ++ [0])) d.length temp
    · have hmade := number_held d h fun _ => ⟨hnull, hsafe⟩
      have hh' := hh.of_frame hmade.frame fun id hb => ⟨hold id hb, by rintro ⟨⟩⟩
      have hcat := concat_broken hh' (Source.made hmade hold) hlt fun hcat =>
        hs fun _ => ⟨hnull, hsafe, hcat.of_not_own (by rintro ⟨_, _, heq, -⟩; cases heq)⟩
      unfold concatNumber
      rw [concatTemp_eq hmade.holds.length]
      exact hcat.free
    · have hfault := (assign_init_fault (h := h) hlt hsafe).2
      exact Or.inl ((frame_free _ _).fault (fault_concat hfault))

/-! ## Without the blocks -/

/-- The string as the keys of `Preferences` are built with it. -/
def keyString (s : WString) (t : List UInt8) : Prefs.WString := ⟨t, s.capacity, s.buffer.isSome⟩

/-- `reserve` does to it what it does there, when the one allocation has the same outcome. -/
theorem reserve_keyString (hh : s.Holds h t) (size : Nat) (out : Realloc) :
    ((s.keyString t).reserve size [!out.isNull]).1 = (s.reserve h size out).ok ∧
      ((s.keyString t).reserve size [!out.isNull]).2.1 =
        (s.reserve h size out).str.keyString t := by
  have hsame : ((s.keyString t).capacity ≥ size ∧ (s.keyString t).allocated = true) ↔
      (s.capacity ≥ size ∧ s.buffer.isSome = true) := Iff.rfl
  unfold Prefs.WString.reserve
  simp only [hsame]
  by_cases henough : s.capacity ≥ size ∧ s.buffer.isSome = true
  · rw [reserve_enough henough, if_pos henough]
    exact ⟨rfl, rfl⟩
  · rw [if_neg henough]
    cases hnull : out.isNull with
    | true =>
      have hr : h.realloc s.buffer ((size + 1) % 2 ^ 32) out =
          (none, (h.realloc s.buffer ((size + 1) % 2 ^ 32) out).2) := by
        cases out with
        | fails | frees => rfl
        | inPlace | moves => cases hnull
      rw [reserve_null henough hr]
      exact ⟨rfl, rfl⟩
    | false =>
      obtain ⟨id, h', hr, -⟩ := realloc_some hnull hh.isSome_block ((size + 1) % 2 ^ 32)
      rw [reserve_some henough hr]
      exact ⟨rfl, rfl⟩

theorem assign_keyString (hh : s.Holds h t) (value : Ptr UInt8) (d : List UInt8) (out : Realloc) :
    ((s.keyString t).assign d [!out.isNull]).1 =
      (s.assign h value d.length out).str.keyString
        (if (s.assign h value d.length out).ok then d else t) := by
  obtain ⟨hok, hstr⟩ := reserve_keyString hh d.length out
  unfold Prefs.WString.assign
  dsimp only
  rw [hok, hstr]
  cases hres : (s.reserve h d.length out).ok with
  | true =>
    rw [assign_ok hres]
    rfl
  | false =>
    rw [assign_failed hres, hres]
    rfl

theorem concat_keyString (hh : s.Holds h t) (value : Ptr UInt8)
    (hlt : s.length + d.length < 2 ^ 32) (out : Realloc) :
    ((s.keyString t).concat d [!out.isNull]).1 =
      (s.concat h (some value) d.length out).str.keyString
        (if (s.concat h (some value) d.length out).ok then t ++ d else t) := by
  by_cases hn : d.length = 0
  · obtain rfl := List.length_eq_zero_iff.mp hn
    simp [Prefs.WString.concat, concat]
  · obtain ⟨hok, hstr⟩ := reserve_keyString hh (s.length + d.length) out
    have hlen : (s.keyString t).length = s.length := hh.length.symm
    unfold Prefs.WString.concat
    dsimp only
    rw [if_neg hn, hlen, hok, hstr]
    cases hres : (s.reserve h (s.length + d.length) out).ok with
    | true =>
      rw [concat_ok hn hlt hres]
      rfl
    | false =>
      rw [concat_failed hn hlt hres, hres]
      rfl

end WString

end Bl616cl.Core
