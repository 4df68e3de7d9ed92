import Bl616cl.Lfs.Blocks
import Bl616cl.Lfs.Ctz

/-!
# littlefs: the lists of blocks

`lfs_ctz_find` walks from the last block of a file to that of a position, and `lfs_ctz_traverse`
passes every block. `IsList` is what they need of the pointers, and what `lfs_ctz_extend` keeps.
-/

namespace Bl616cl.Lfs

open Bl616cl.Lib

variable (c : Config) (d : Blocks)

/-! ## The functions -/

/-- The loop of `lfs_ctz_find`. It is over after 64 rounds at most (`findLoop_eq`). -/
def findLoop (target : Nat) : Nat → Nat → Nat → Except Err Nat
  | 0, _, head => .ok head
  | fuel + 1, current, head =>
    if current > target then do
      let skip := min (lfsNpw2 (current - target + 1) - 1) (lfsCtz current)
      let head ← d.readPointer c head skip
      findLoop target fuel (current - 2 ^ skip) head
    else .ok head

/-- The block of a position, and the offset in it. -/
def lfsCtzFind (head size pos : Nat) : Except Err (Nat × Nat) :=
  if size = 0 then .ok (blockNull, 0)
  else do
    let current := (lfsCtzIndex c (size - 1)).1
    let target := (lfsCtzIndex c pos).1
    let block ← findLoop c d target 64 current head
    return (block, (lfsCtzIndex c pos).2)

/-- The loop of `lfs_ctz_traverse`: the blocks that the callback gets. -/
def traverseLoop : Nat → Nat → Nat → Except Err (List Nat)
  | 0, _, _ => .ok []
  | fuel + 1, index, head =>
    if index = 0 then .ok [head]
    else if index % 2 = 1 then do
      let next ← d.readPointer c head 0
      let rest ← traverseLoop fuel (index - 1) next
      return head :: rest
    else do
      let first ← d.readPointer c head 0
      let next ← d.readPointer c head 1
      let rest ← traverseLoop fuel (index - 2) next
      return head :: first :: rest

def lfsCtzTraverse (head size : Nat) : Except Err (List Nat) :=
  if size = 0 then .ok []
  else
    let index := (lfsCtzIndex c (size - 1)).1
    traverseLoop c d (index + 1) index head

/-- The pointers that `lfs_ctz_extend` writes to a new block, from the one with this number on. -/
def pointerLoop (nblock : Nat) : Nat → Nat → Nat → Blocks → Blocks × Except Err Unit
  | 0, _, _, d => (d, .ok ())
  | skips + 1, i, nhead, d =>
    let d := d.prog nblock (4 * i) (toLe 4 nhead)
    if skips = 0 then (d, .ok ())
    else
      match d.readPointer c nhead i with
      | .error e => (d, .error e)
      | .ok nhead => pointerLoop nblock skips (i + 1) nhead d

/-- What `lfs_alloc` delivers, and whether the block can be written: `bad` ones are left as they
are then and another is asked for. Other errors end the call, also that of a read while the block
is being written: it is a `bad` one and then `fails`. -/
inductive Alloc where
  | fails (e : Err)
  | bad (block : Nat) (left : Nat → UInt8)
  | good (block : Nat) (left : Nat → UInt8)

/-- A block that can be written is among them, before any error. -/
def Served : List Alloc → Prop
  | .bad _ _ :: more => Served more
  | .good _ _ :: _ => True
  | _ => False

/-- `lfs_ctz_extend`: the block to go on in, and the offset there. -/
def lfsCtzExtend (head size : Nat) (d : Blocks) : List Alloc → Blocks × Except Err (Nat × Nat)
  | [] => (d, .error .nospc)
  | .fails e :: _ => (d, .error e)
  | .bad block left :: more => lfsCtzExtend head size (d.erase block left) more
  | .good nblock left :: _ =>
    let d := d.erase nblock left
    if size = 0 then (d, .ok (nblock, 0))
    else
      let noff := (lfsCtzIndex c (size - 1)).2 + 1
      let index := (lfsCtzIndex c (size - 1)).1
      if noff ≠ c.blockSize then
        -- the last block is incomplete: just copy it
        match d.read c head 0 noff with
        | .error e => (d, .error e)
        | .ok data => (d.prog nblock 0 data, .ok (nblock, noff))
      else
        let skips := lfsCtz (index + 1) + 1
        let (d, res) := pointerLoop c nblock skips 0 head d
        (d, res.map fun _ => (nblock, 4 * skips))

/-! ## Lists of blocks -/

/-- The blocks up to index `n`, each with pointers to those `2 ^ k` before it. -/
structure IsList (blocks : Nat → Nat) (n : Nat) : Prop where
  inside : ∀ i ≤ n, blocks i < c.blockCount
  pointer : ∀ i ≤ n, ∀ k < pointers i, d.pointer (blocks i) k = blocks (i - 2 ^ k)

variable {c d} {blocks : Nat → Nat} {n i k target current fuel head : Nat}

theorem lt_pointers_iff (hpos : 0 < i) : k < pointers i ↔ k ≤ lfsCtz i := by
  rw [pointers, if_neg (by omega), Nat.lt_succ_iff]

theorem pointer_room (hi : i < 2 ^ 32) (hk : k < pointers i) : 4 * k + 4 ≤ c.blockSize := by
  have hle := pointers_le hi (Nat.le_refl _)
  have hsize := c.blockSize_ge
  omega

theorem IsList.readPointer_eq (h : IsList c d blocks n) (hi : i ≤ n) (hn : n < 2 ^ 32)
    (hk : k < pointers i) : d.readPointer c (blocks i) k = .ok (blocks (i - 2 ^ k)) := by
  rw [Blocks.readPointer_eq (h.inside i hi) (pointer_room (by omega) hk), h.pointer i hi k hk]

theorem lfsNpw2_succ (m : Nat) : lfsNpw2 (m + 1) = m.size := rfl

/-- How many rounds are left: those in which the pointers get longer, and those in which the way
to the target gets shorter. -/
def rounds (current target : Nat) : Nat :=
  if target < current then
    ((current - target).size - 1 - lfsCtz current) + (current - target).size
  else 0

theorem rounds_le (hcur : current < 2 ^ 32) : rounds current target ≤ 64 := by
  unfold rounds
  have hsize : (current - target).size ≤ 32 := Nat.size_le.2 (by omega)
  split <;> omega

/-- The way that a round goes: a pointer that is there, and not beyond the target. -/
theorem skip_spec (hcur : current < 2 ^ 32) (h : target < current) :
    min (lfsNpw2 (current - target + 1) - 1) (lfsCtz current) < pointers current ∧
      2 ^ min (lfsNpw2 (current - target + 1) - 1) (lfsCtz current) ≤ current - target ∧
      rounds (current - 2 ^ min (lfsNpw2 (current - target + 1) - 1) (lfsCtz current)) target <
        rounds current target := by
  rw [lfsNpw2_succ, lt_pointers_iff (by omega)]
  obtain ⟨m, hm⟩ : ∃ m, m = current - target := ⟨_, rfl⟩
  have hsize : 0 < m.size := Nat.size_pos.2 (by omega)
  have hlow : 2 ^ (m.size - 1) ≤ m := Nat.lt_size.1 (by omega)
  have hhigh : m < 2 ^ m.size := Nat.lt_size_self m
  rw [← hm]
  have hskip : 2 ^ min (m.size - 1) (lfsCtz current) ≤ m :=
    Nat.le_trans (Nat.pow_le_pow_right (by omega) (Nat.min_le_left _ _)) hlow
  refine ⟨Nat.min_le_right _ _, hskip, ?_⟩
  rw [rounds, rounds, if_pos h, ← hm]
  split
  · next hmore =>
    rcases Nat.lt_or_ge (lfsCtz current) (m.size - 1) with hz | hz
    · -- the pointers of the block reached are longer
      rw [Nat.min_eq_right (Nat.le_of_lt hz)] at hskip hmore ⊢
      have hpow := Nat.two_pow_pos (lfsCtz current)
      have hlonger : lfsCtz current < lfsCtz (current - 2 ^ lfsCtz current) :=
        ctz_lt_ctz_sub hcur (by unfold lfsCtz at hmore; omega)
      have hle : (current - 2 ^ lfsCtz current - target).size ≤ m.size :=
        Nat.size_le_size (by omega)
      omega
    · -- less than half of the way is left
      rw [Nat.min_eq_left (by omega)] at hskip hmore ⊢
      have hpow : 2 ^ m.size = 2 * 2 ^ (m.size - 1) := by
        rw [← Nat.pow_succ', Nat.succ_eq_add_one, Nat.sub_add_cancel hsize]
      have hle : (current - 2 ^ (m.size - 1) - target).size ≤ m.size - 1 :=
        Nat.size_le.2 (by omega)
      have hdvd : 2 ^ (m.size - 1) ∣ current - 2 ^ (m.size - 1) :=
        Nat.dvd_sub ((le_ctz_iff (by omega) hcur).1 hz) (Nat.dvd_refl _)
      have hstay : m.size - 1 ≤ lfsCtz (current - 2 ^ (m.size - 1)) :=
        (le_ctz_iff (by omega) (by omega)).2 hdvd
      omega
  · omega

/-- The loop ends at the block of the target. -/
theorem findLoop_eq (h : IsList c d blocks n) (hn : n < 2 ^ 32) (hcur : current ≤ n)
    (hle : target ≤ current) (hfuel : rounds current target ≤ fuel) :
    findLoop c d target fuel current (blocks current) = .ok (blocks target) := by
  induction fuel generalizing current with
  | zero =>
    obtain rfl : current = target := by
      by_contra hne
      have := (skip_spec (show current < 2 ^ 32 by omega) (show target < current by omega)).2.2
      omega
    rfl
  | succ fuel ih =>
    rw [findLoop]
    rcases Nat.lt_or_ge target current with hlt | hge
    · obtain ⟨hptr, hskip, hless⟩ := skip_spec (show current < 2 ^ 32 by omega) hlt
      rw [if_pos hlt]
      dsimp only
      rw [h.readPointer_eq hcur hn hptr]
      generalize min (lfsNpw2 (current - target + 1) - 1) (lfsCtz current) = skip at *
      have hpow := Nat.two_pow_pos skip
      exact ih (by omega) (by omega) (by omega)
    · obtain rfl : current = target := by omega
      rw [if_neg (by omega)]

/-! ## Files -/

/-- A list whose block with index `n` is the one that a file of this size ends or goes on in. -/
structure IsTail (c : Config) (d : Blocks) (blocks : Nat → Nat) (n size : Nat) : Prop
    extends IsList c d blocks n where
  bound : n + 1 < 2 ^ 32
  size_lt : size < 2 ^ 32
  start : blockStart c n ≤ size
  stop : size ≤ blockStart c (n + 1)

/-- A file of this size, with its last block at index `n`. -/
structure IsFile (c : Config) (d : Blocks) (blocks : Nat → Nat) (n size : Nat) : Prop
    extends IsTail c d blocks n size where
  begun : blockStart c n < size

/-- The byte at a position of a file. -/
def byteAt (c : Config) (d : Blocks) (blocks : Nat → Nat) (pos : Nat) : UInt8 :=
  d (blocks (lfsCtzIndex c pos).1) (lfsCtzIndex c pos).2

variable {size pos : Nat}

theorem IsFile.index_last (h : IsFile c d blocks n size) :
    lfsCtzIndex c (size - 1) = (n, 4 * pointers n + (size - 1 - blockStart c n)) :=
  lfsCtzIndex_eq h.bound (by have := h.size_lt; omega) (by have := h.begun; omega)
    (by have := h.begun; have := h.stop; omega)

/-- `lfs_ctz_find` finds the block of every position in the file, and the offset there. -/
theorem lfsCtzFind_eq (h : IsFile c d blocks n size) (hlo : blockStart c i ≤ pos)
    (hhi : pos < blockStart c (i + 1)) (hpos : pos < size) :
    lfsCtzFind c d (blocks n) size pos =
      .ok (blocks i, 4 * pointers i + (pos - blockStart c i)) := by
  have hbound := h.bound
  have hsize := h.size_lt
  have hstart := h.begun
  have hstop := h.stop
  have hle : i ≤ n := index_le_of_lt hlo (by omega)
  rw [lfsCtzFind, if_neg (by omega), h.index_last,
    lfsCtzIndex_eq (by omega) (by omega) hlo hhi]
  dsimp only
  rw [findLoop_eq h.toIsList (by omega) (Nat.le_refl n) hle (rounds_le (by omega))]
  rfl

/-! ## Passing every block -/

/-- The blocks from index `i` down. -/
def downFrom (blocks : Nat → Nat) (i : Nat) : List Nat := (List.range (i + 1)).reverse.map blocks

theorem downFrom_succ : downFrom blocks (i + 1) = blocks (i + 1) :: downFrom blocks i := by
  simp [downFrom, List.range_succ (n := i + 1)]

theorem traverseLoop_eq (h : IsList c d blocks n) (hn : n < 2 ^ 32) (hle : i ≤ n)
    (hfuel : i < fuel) : traverseLoop c d fuel i (blocks i) = .ok (downFrom blocks i) := by
  induction fuel generalizing i with
  | zero => omega
  | succ fuel ih =>
    rw [traverseLoop]
    split
    · next hzero =>
      subst hzero
      rfl
    · next hne =>
      have hfirst : 0 < pointers i := (lt_pointers_iff (by omega)).2 (Nat.zero_le _)
      rw [h.readPointer_eq hle hn hfirst, Nat.pow_zero]
      split
      · next hodd =>
        obtain ⟨j, rfl⟩ : ∃ j, i = j + 1 := ⟨i - 1, by omega⟩
        rw [downFrom_succ, Nat.add_sub_cancel]
        dsimp only [bind, Except.bind]
        rw [ih (by omega) (by omega)]
        rfl
      · next heven =>
        -- an even block has the pointer to the block two before it
        obtain ⟨j, rfl⟩ : ∃ j, i = j + 1 + 1 := ⟨i - 2, by omega⟩
        have hsecond : 1 < pointers (j + 1 + 1) :=
          (lt_pointers_iff (by omega)).2 ((le_ctz_iff (by omega) (by omega)).2 (by omega))
        rw [h.readPointer_eq hle hn hsecond, downFrom_succ, downFrom_succ, Nat.pow_one,
          show j + 1 + 1 - 2 = j by omega, Nat.add_sub_cancel]
        dsimp only [bind, Except.bind]
        rw [ih (by omega) (by omega)]
        rfl

/-- `lfs_ctz_traverse` passes every block of a file once, the last one first. -/
theorem lfsCtzTraverse_eq (h : IsFile c d blocks n size) :
    lfsCtzTraverse c d (blocks n) size = .ok (downFrom blocks n) := by
  have hbound := h.bound
  have hstart := h.begun
  rw [lfsCtzTraverse, if_neg (by omega), h.index_last]
  exact traverseLoop_eq h.toIsList (by omega) (Nat.le_refl n) (Nat.lt_succ_self n)

/-! ## A new last block -/

/-- The pointers that the loop writes are those of the next block of the list. -/
theorem pointerLoop_spec {e : Blocks} {nblock skips : Nat} (h : IsList c d blocks n)
    (hn : n + 1 < 2 ^ 32) (hfresh : ∀ j ≤ n, blocks j ≠ nblock) (hsame : ∀ b ≠ nblock, e b = d b)
    (hskips : 0 < skips) (hall : k + skips = pointers (n + 1)) :
    ∃ e', pointerLoop c nblock skips k (blocks (n + 1 - 2 ^ k)) e = (e', .ok ()) ∧
      (∀ b ≠ nblock, e' b = d b) ∧ (∀ j < k, e'.pointer nblock j = e.pointer nblock j) ∧
      ∀ j, k ≤ j → j < pointers (n + 1) → e'.pointer nblock j = blocks (n + 1 - 2 ^ j) := by
  induction skips generalizing k e with
  | zero => omega
  | succ skips ih =>
    have hpow := Nat.two_pow_pos k
    have hk : k ≤ lfsCtz (n + 1) := (lt_pointers_iff (by omega)).1 (by omega)
    have hvalue : blocks (n + 1 - 2 ^ k) < 2 ^ 32 := by
      have := h.inside (n + 1 - 2 ^ k) (by omega)
      have := c.blockCount_le
      unfold blockInline at this
      omega
    obtain ⟨f, hf⟩ : ∃ f, f = e.prog nblock (4 * k) (toLe 4 (blocks (n + 1 - 2 ^ k))) := ⟨_, rfl⟩
    have hfsame : ∀ b ≠ nblock, f b = d b := by
      intro b hb
      rw [hf, Blocks.prog_of_ne hb, hsame b hb]
    have hfk : f.pointer nblock k = blocks (n + 1 - 2 ^ k) := by
      rw [hf, Blocks.pointer_prog_self hvalue]
    have hfj : ∀ j ≠ k, f.pointer nblock j = e.pointer nblock j := by
      intro j hj
      rw [hf, Blocks.pointer_prog_of_ne hj]
    rw [pointerLoop, ← hf]
    split
    · next hlast =>
      subst hlast
      refine ⟨f, rfl, hfsame, fun j hj => hfj j (by omega), fun j hkj hj => ?_⟩
      obtain rfl : j = k := by omega
      exact hfk
    · next hmore =>
      -- the next pointer is that of the block the last one leads to
      have hlow : k < lfsCtz (n + 1) := (lt_pointers_iff (by omega)).1 (by omega)
      have hle : 2 ^ lfsCtz (n + 1) ≤ n + 1 := two_pow_ctz_le (by omega) hn
      have hdouble : 2 ^ (k + 1) ≤ 2 ^ lfsCtz (n + 1) := Nat.pow_le_pow_right (by omega) hlow
      rw [Nat.pow_succ] at hdouble
      have hread : f.readPointer c (blocks (n + 1 - 2 ^ k)) k =
          .ok (blocks (n + 1 - 2 ^ (k + 1))) := by
        have hptr : k < pointers (n + 1 - 2 ^ k) := by
          have hctz : lfsCtz (n + 1 - 2 ^ k) = k := ctz_sub_two_pow (by omega) hn hlow
          rw [lt_pointers_iff (by omega), hctz]
        have hcongr := Blocks.pointer_congr (k := k)
          (hfsame (blocks (n + 1 - 2 ^ k)) (hfresh _ (by omega)))
        rw [Blocks.readPointer_eq (h.inside _ (by omega)) (pointer_room (by omega) hptr), hcongr,
          h.pointer _ (by omega) k hptr, Nat.pow_succ, Nat.mul_two, Nat.sub_add_eq]
      rw [hread]
      obtain ⟨e', hloop, hesame, hbefore, hafter⟩ := ih (k := k + 1) hfsame (by omega) (by omega)
      refine ⟨e', hloop, hesame, fun j hj => ?_, fun j hkj hj => ?_⟩
      · rw [hbefore j (by omega), hfj j (by omega)]
      · rcases Nat.lt_or_ge k j with hlt | hge
        · exact hafter j hlt hj
        · obtain rfl : j = k := by omega
          rw [hbefore j (by omega), hfk]

/-- The block that was handed out. -/
def Alloc.block? : Alloc → Option Nat
  | .fails _ => none
  | .bad block _ => some block
  | .good block _ => some block

def handedOut (allocs : List Alloc) : List Nat := allocs.filterMap Alloc.block?

variable {e d' : Blocks} {nblock off : Nat} {allocs : List Alloc}

@[simp] theorem handedOut_bad {block : Nat} {left : Nat → UInt8} :
    handedOut (.bad block left :: allocs) = block :: handedOut allocs := rfl

@[simp] theorem handedOut_good {block : Nat} {left : Nat → UInt8} :
    handedOut (.good block left :: allocs) = block :: handedOut allocs := rfl

theorem IsList.congr (h : IsList c d blocks n) (hsame : ∀ j ≤ n, e (blocks j) = d (blocks j)) :
    IsList c e blocks n where
  inside := h.inside
  pointer j hj k hk := by rw [Blocks.pointer_congr (hsame j hj), h.pointer j hj k hk]

theorem IsFile.congr (h : IsFile c d blocks n size)
    (hsame : ∀ j ≤ n, e (blocks j) = d (blocks j)) : IsFile c e blocks n size :=
  { h with toIsList := h.toIsList.congr hsame }

theorem IsTail.byteAt_congr (h : IsTail c d blocks n size)
    (hsame : ∀ j ≤ n, e (blocks j) = d (blocks j)) (hpos : pos < size) :
    byteAt c e blocks pos = byteAt c d blocks pos := by
  have hsize := h.size_lt
  have hstop := h.stop
  obtain ⟨j, hj, hlo, hhi⟩ := exists_block c (show pos < 2 ^ 32 by omega)
  rw [byteAt, byteAt, lfsCtzIndex_eq hj (by omega) hlo hhi]
  dsimp only
  rw [hsame j (index_le_of_lt hlo (by omega))]

/-- A block with the pointers of index `i` goes on a list of at least that many blocks. -/
theorem IsList.update (h : IsList c d blocks n) (hle : i ≤ n + 1)
    (hsame : ∀ j < i, e (blocks j) = d (blocks j)) (hin : nblock < c.blockCount)
    (hptr : ∀ k < pointers i, e.pointer nblock k = blocks (i - 2 ^ k)) :
    IsList c e (Function.update blocks i nblock) i where
  inside j hj := by
    rcases Nat.lt_or_eq_of_le hj with hlt | rfl
    · rw [Function.update_of_ne (Nat.ne_of_lt hlt)]
      exact h.inside j (by omega)
    · rwa [Function.update_self]
  pointer j hj k hk := by
    have hpow := Nat.two_pow_pos k
    have hpos : 0 < j := by
      rcases Nat.eq_zero_or_pos j with rfl | hpos
      · simp [pointers] at hk
      · exact hpos
    rw [Function.update_of_ne (show j - 2 ^ k ≠ i by omega)]
    rcases Nat.lt_or_eq_of_le hj with hlt | rfl
    · rw [Function.update_of_ne (Nat.ne_of_lt hlt), Blocks.pointer_congr (hsame j hlt),
        h.pointer j (by omega) k hk]
    · rw [Function.update_self, hptr k hk]

theorem pointerLoop_frame {b skips nhead : Nat} (hb : b ≠ nblock) :
    (pointerLoop c nblock skips k nhead d).1 b = d b := by
  induction skips generalizing k nhead d with
  | zero => rfl
  | succ skips ih =>
    rw [pointerLoop]
    split
    · exact Blocks.prog_of_ne hb
    · split
      · exact Blocks.prog_of_ne hb
      · rw [ih, Blocks.prog_of_ne hb]

/-- `lfs_ctz_extend` writes no block that it was not handed. -/
theorem lfsCtzExtend_frame {head b : Nat} (hb : b ∉ handedOut allocs) :
    (lfsCtzExtend c head size d allocs).1 b = d b := by
  induction allocs generalizing d with
  | nil => rfl
  | cons a more ih =>
    cases a with
    | fails e => rfl
    | bad block left =>
      obtain ⟨hne, hmore⟩ : b ≠ block ∧ b ∉ handedOut more := by simpa using hb
      rw [lfsCtzExtend, ih hmore, Blocks.erase_of_ne hne]
    | good nblock left =>
      have hne : b ≠ nblock := by
        rintro rfl
        simp at hb
      rw [lfsCtzExtend]
      dsimp only
      split
      · exact Blocks.erase_of_ne hne
      · split
        · split
          · exact Blocks.erase_of_ne hne
          · exact (Blocks.prog_of_ne hne).trans (Blocks.erase_of_ne hne)
        · rw [pointerLoop_frame hne, Blocks.erase_of_ne hne]

/-- A copy of the last block as far as it is written can take its place. -/
theorem IsTail.copy (h : IsTail c d blocks n size) (hin : nblock < c.blockCount)
    (hsame : ∀ j < n, e (blocks j) = d (blocks j))
    (hcopy : ∀ k < 4 * pointers n + (size - blockStart c n), e nblock k = d (blocks n) k) :
    IsTail c e (Function.update blocks n nblock) n size ∧
      ∀ pos < size, byteAt c e (Function.update blocks n nblock) pos = byteAt c d blocks pos := by
  have hsize := h.size_lt
  have hstop := h.stop
  have hlist : IsList c e (Function.update blocks n nblock) n := by
    refine h.toIsList.update (Nat.le_succ n) hsame hin fun k hk => ?_
    rw [← h.pointer n (Nat.le_refl n) k hk, Blocks.pointer, Blocks.pointer]
    congr 1
    refine Memory.read_congr fun j hkj hj => hcopy j ?_
    omega
  refine ⟨⟨hlist, h.bound, h.size_lt, h.start, h.stop⟩, fun pos hpos => ?_⟩
  obtain ⟨j, hj, hlo, hhi⟩ := exists_block c (show pos < 2 ^ 32 by omega)
  have hjn : j ≤ n := index_le_of_lt hlo (by omega)
  rw [byteAt, byteAt, lfsCtzIndex_eq hj (by omega) hlo hhi]
  dsimp only
  rcases Nat.lt_or_eq_of_le hjn with hless | rfl
  · rw [Function.update_of_ne (Nat.ne_of_lt hless), hsame j hless]
  · rw [Function.update_self, hcopy _ (by omega)]

/-- The last block is incomplete: its copy takes its place. -/
theorem lfsCtzExtend_copy (left : Nat → UInt8) (more : List Alloc)
    (h : IsFile c d blocks n size) (hlt : size < blockStart c (n + 1))
    (hin : nblock < c.blockCount) (hfresh : ∀ j ≤ n, blocks j ≠ nblock) :
    ∃ d', lfsCtzExtend c (blocks n) size d (.good nblock left :: more) =
        (d', .ok (nblock, 4 * pointers n + (size - blockStart c n))) ∧
      IsTail c d' (Function.update blocks n nblock) n size ∧
      ∀ pos < size, byteAt c d' (Function.update blocks n nblock) pos = byteAt c d blocks pos := by
  have hstart := h.begun
  have hlen : blockStart c (n + 1) = blockStart c n + (c.blockSize - 4 * pointers n) := rfl
  have hsame : ∀ j ≤ n, d.erase nblock left (blocks j) = d (blocks j) :=
    fun j hj => Blocks.erase_of_ne (hfresh j hj)
  obtain ⟨noff, hnoff⟩ : ∃ noff, noff = 4 * pointers n + (size - blockStart c n) := ⟨_, rfl⟩
  rw [lfsCtzExtend]
  dsimp only
  rw [if_neg (by omega), h.index_last]
  dsimp only
  rw [show 4 * pointers n + (size - 1 - blockStart c n) + 1 = noff by omega, if_pos (by omega),
    Blocks.read_eq (h.inside n (Nat.le_refl n)) (by omega), ← hnoff]
  refine ⟨_, rfl, h.toIsTail.copy hin (fun j hj => ?_) fun k hk => ?_⟩
  · rw [Blocks.prog_of_ne (hfresh j (by omega)), hsame j (by omega)]
  · rw [Blocks.prog_self, Memory.write_read (Nat.zero_le k) (by omega), hsame n (Nat.le_refl n)]

/-- The last block is full: one with pointers to the list follows it. -/
theorem lfsCtzExtend_append (left : Nat → UInt8) (more : List Alloc)
    (h : IsFile c d blocks n size) (hfull : size = blockStart c (n + 1))
    (hin : nblock < c.blockCount) (hfresh : ∀ j ≤ n, blocks j ≠ nblock) :
    ∃ d', lfsCtzExtend c (blocks n) size d (.good nblock left :: more) =
        (d', .ok (nblock, 4 * pointers (n + 1))) ∧
      IsTail c d' (Function.update blocks (n + 1) nblock) (n + 1) size ∧
      ∀ pos < size,
        byteAt c d' (Function.update blocks (n + 1) nblock) pos = byteAt c d blocks pos := by
  have hstart := h.begun
  have hbound := h.bound
  have hsize := h.size_lt
  have hlen : blockStart c (n + 1) = blockStart c n + (c.blockSize - 4 * pointers n) := rfl
  have hsame : ∀ b ≠ nblock, d.erase nblock left b = d b := fun b hb => Blocks.erase_of_ne hb
  have hlist : IsList c (d.erase nblock left) blocks n :=
    h.toIsList.congr fun j hj => hsame _ (hfresh j hj)
  have hptrs : pointers (n + 1) = lfsCtz (n + 1) + 1 := rfl
  rw [lfsCtzExtend]
  dsimp only
  rw [if_neg (by omega), h.index_last]
  dsimp only
  rw [if_neg (by omega), ← hptrs]
  obtain ⟨e, hloop, hesame, -, hptr⟩ := pointerLoop_spec (k := 0)
    hlist hbound hfresh (fun b _ => rfl) (show 0 < pointers (n + 1) by omega) (by omega)
  rw [Nat.pow_zero, Nat.add_sub_cancel] at hloop
  rw [hloop]
  have hkeep : ∀ j ≤ n, e (blocks j) = d (blocks j) := by
    intro j hj
    rw [hesame _ (hfresh j hj), hsame _ (hfresh j hj)]
  have hn := index_lt (by omega) (Nat.le_of_lt hstart) hsize
  have hnext := blockStart_lt_succ (c := c) (i := n + 1) (by omega)
  refine ⟨e, rfl, ⟨?_, by omega, hsize, by omega, by omega⟩, fun pos hpos => ?_⟩
  · exact h.toIsList.update (Nat.le_refl _) (fun j hj => hkeep j (by omega)) hin
      fun k hk => hptr k (Nat.zero_le k) hk
  · rw [← h.toIsTail.byteAt_congr hkeep hpos]
    obtain ⟨j, hj, hlo, hhi⟩ := exists_block c (show pos < 2 ^ 32 by omega)
    have hjn : j ≤ n := index_le_of_lt hlo (by omega)
    rw [byteAt, byteAt, lfsCtzIndex_eq hj (by omega) hlo hhi]
    dsimp only
    rw [Function.update_of_ne (by omega)]

/-- Without a block that can be written there is none to go on in. -/
theorem lfsCtzExtend_unserved (c : Config) (d : Blocks) (head size : Nat) (h : ¬Served allocs) :
    ∃ e, (lfsCtzExtend c head size d allocs).2 = .error e := by
  induction allocs generalizing d with
  | nil => exact ⟨_, rfl⟩
  | cons a more ih =>
    cases a with
    | fails e => exact ⟨e, rfl⟩
    | bad block left => exact ih _ h
    | good block left => exact absurd trivial h

/-- The file goes on in the first block that can be written, at the place of its size in the
layout, and keeps its bytes. -/
theorem lfsCtzExtend_spec (hfile : 0 < size → IsFile c d blocks n size) (hsize : size < 2 ^ 32)
    (hlo : blockStart c i ≤ size) (hhi : size < blockStart c (i + 1))
    (hin : ∀ b ∈ handedOut allocs, b < c.blockCount)
    (hfresh : 0 < size → ∀ b ∈ handedOut allocs, ∀ j ≤ n, blocks j ≠ b)
    (hserved : Served allocs) :
    ∃ d' nblock, lfsCtzExtend c (blocks n) size d allocs =
        (d', .ok (nblock, 4 * pointers i + (size - blockStart c i))) ∧
      nblock ∈ handedOut allocs ∧ IsTail c d' (Function.update blocks i nblock) i size ∧
      ∀ pos < size, byteAt c d' (Function.update blocks i nblock) pos = byteAt c d blocks pos := by
  induction allocs generalizing d with
  | nil => exact hserved.elim
  | cons a more ih =>
    cases a with
    | fails e => exact hserved.elim
    | bad block left =>
      rw [handedOut_bad] at hin hfresh ⊢
      have hkeep : 0 < size → ∀ j ≤ n, d.erase block left (blocks j) = d (blocks j) :=
        fun hpos j hj => Blocks.erase_of_ne (hfresh hpos block List.mem_cons_self j hj)
      obtain ⟨d', nblock, hext, hmem, hlist, hbytes⟩ := ih
        (fun hpos => (hfile hpos).congr (hkeep hpos))
        (fun b hb => hin b (List.mem_cons_of_mem _ hb))
        (fun hpos b hb => hfresh hpos b (List.mem_cons_of_mem _ hb)) hserved
      refine ⟨d', nblock, hext, List.mem_cons_of_mem _ hmem, hlist, fun pos hpos => ?_⟩
      rw [hbytes pos hpos]
      exact (hfile (by omega)).toIsTail.byteAt_congr (hkeep (by omega)) hpos
    | good block left =>
      have hblock := hin block List.mem_cons_self
      rcases Nat.eq_zero_or_pos size with rfl | hpos
      · obtain rfl : i = 0 := by
          have := index_le_of_lt (j := 0) hlo (blockStart_lt_succ (c := c) (i := 0) (by omega))
          omega
        refine ⟨d.erase block left, block, rfl, List.mem_cons_self, ⟨⟨fun j hj => ?_,
          fun j hj k hk => ?_⟩, by omega, hsize, hlo, Nat.le_of_lt hhi⟩, fun pos hpos => ?_⟩
        · obtain rfl : j = 0 := by omega
          rwa [Function.update_self]
        · obtain rfl : j = 0 := by omega
          simp [pointers] at hk
        · omega
      · have h := hfile hpos
        have hfresh := hfresh hpos block List.mem_cons_self
        have hstart := h.begun
        have hstop := h.stop
        have hle := index_le_of_lt (Nat.le_of_lt hstart) hhi
        have hn := index_lt (by have := h.bound; omega) (Nat.le_of_lt hstart) hsize
        rcases Nat.lt_or_ge size (blockStart c (n + 1)) with hlt | hge
        · obtain rfl : i = n := Nat.le_antisymm (index_le_of_lt hlo hlt) hle
          obtain ⟨e, hext, hlist, hbytes⟩ := lfsCtzExtend_copy left more h hlt
            hblock hfresh
          exact ⟨e, block, hext, List.mem_cons_self, hlist, hbytes⟩
        · have hfull : size = blockStart c (n + 1) := Nat.le_antisymm hstop hge
          have hnext := blockStart_lt_succ (c := c) (i := n + 1) (by omega)
          obtain rfl : i = n + 1 :=
            Nat.le_antisymm (index_le_of_lt hlo (by omega)) (index_le_of_lt hge hhi)
          obtain ⟨e, hext, hlist, hbytes⟩ := lfsCtzExtend_append left more h
            hfull hblock hfresh
          rw [hfull, Nat.sub_self, Nat.add_zero, ← hfull]
          exact ⟨e, block, hext, List.mem_cons_self, hlist, hbytes⟩

end Bl616cl.Lfs
