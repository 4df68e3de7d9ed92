import Mathlib.Data.List.Nodup
import Bl616cl.Lfs.SkipList

/-!
# littlefs: data in lists of blocks

What a list of blocks holds, as a list of bytes, and what reading, cutting, copying and extending
the list make of it.
-/

namespace Bl616cl.Lfs

open Bl616cl.Lib

/-- The blocks up to index `n` are distinct and hold this data. -/
structure Holds (c : Config) (d : Blocks) (blocks : Nat → Nat) (n : Nat) (data : List UInt8) :
    Prop extends IsTail c d blocks n data.length where
  distinct : ∀ i ≤ n, ∀ j < i, blocks j ≠ blocks i
  byte : ∀ pos (h : pos < data.length), byteAt c d blocks pos = data[pos]

variable {c : Config} {d e : Blocks} {blocks : Nat → Nat} {n i pos len off nblock : Nat}
  {data new : List UInt8}

theorem lfsCtzIndex_spec (c : Config) (h : pos < 2 ^ 32) :
    (lfsCtzIndex c pos).1 + 1 < 2 ^ 32 ∧ blockStart c (lfsCtzIndex c pos).1 ≤ pos ∧
      pos < blockStart c ((lfsCtzIndex c pos).1 + 1) ∧
      (lfsCtzIndex c pos).2 =
        4 * pointers (lfsCtzIndex c pos).1 + (pos - blockStart c (lfsCtzIndex c pos).1) := by
  obtain ⟨i, hi, hlo, hhi⟩ := exists_block c h
  rw [lfsCtzIndex_eq hi h hlo hhi]
  exact ⟨hi, hlo, hhi, rfl⟩

/-- `lfs_ctz_index` finds the one block of the layout that a position lies in. -/
theorem lfsCtzIndex_iff (h : pos < 2 ^ 32) :
    lfsCtzIndex c pos = (i, off) ↔ blockStart c i ≤ pos ∧ pos < blockStart c (i + 1) ∧
      off = 4 * pointers i + (pos - blockStart c i) := by
  obtain ⟨hi, hlo, hhi, hoff⟩ := lfsCtzIndex_spec c h
  constructor
  · intro heq
    rw [heq] at hlo hhi hoff
    exact ⟨hlo, hhi, hoff⟩
  · rintro ⟨hlo', hhi', rfl⟩
    obtain rfl : i = (lfsCtzIndex c pos).1 :=
      Nat.le_antisymm (index_le_of_lt hlo' hhi) (index_le_of_lt hlo hhi')
    exact Prod.ext rfl hoff

theorem lfsCtzIndex_iff_second :
    lfsCtzIndex (lfsCfg 0x8000) 4100 = (1, 8) ↔
      blockStart (lfsCfg 0x8000) 1 ≤ 4100 ∧ 4100 < blockStart (lfsCfg 0x8000) (1 + 1) ∧
        8 = 4 * pointers 1 + (4100 - blockStart (lfsCfg 0x8000) 1) :=
  lfsCtzIndex_iff (by decide)

namespace Holds

theorem congr (h : Holds c d blocks n data) (hsame : ∀ j ≤ n, e (blocks j) = d (blocks j)) :
    Holds c e blocks n data :=
  { h with
    toIsList := h.toIsList.congr hsame
    byte := fun pos hpos => by rw [h.toIsTail.byteAt_congr hsame hpos, h.byte pos hpos] }

theorem isFile (h : Holds c d blocks n data) (hbegun : blockStart c n < data.length) :
    IsFile c d blocks n data.length :=
  { h.toIsTail with begun := hbegun }

theorem read_eq (h : Holds c d blocks n data) (hi : i ≤ n) (hlo : blockStart c i ≤ pos)
    (hhi : pos + len ≤ blockStart c (i + 1)) (hlen : pos + len ≤ data.length) :
    d.read c (blocks i) (4 * pointers i + (pos - blockStart c i)) len =
      .ok ((data.drop pos).take len) := by
  have hbound := h.bound
  have hsize := h.size_lt
  have hblock : blockStart c (i + 1) = blockStart c i + (c.blockSize - 4 * pointers i) := rfl
  have hptrs := pointers_le (i := i) (k := 32) (by omega) (Nat.le_refl _)
  have hmin := c.blockSize_ge
  rw [Blocks.read_eq (h.inside i hi) (by omega)]
  congr 1
  refine List.ext_getElem (by simp; omega) fun k hk hk' => ?_
  have hlt : k < len := by simpa using hk
  have hbyte := h.byte (pos + k) (by omega)
  rw [byteAt, lfsCtzIndex_eq (i := i) (by omega) (by omega) (by omega) (by omega)] at hbyte
  simp only [Memory.read, List.getElem_map, List.getElem_range, List.getElem_take,
    List.getElem_drop]
  rw [← hbyte]
  dsimp only
  congr 1
  omega

theorem lfsCtzFind_eq (h : Holds c d blocks n data) (hbegun : blockStart c n < data.length)
    (hlo : blockStart c i ≤ pos) (hhi : pos < blockStart c (i + 1)) (hpos : pos < data.length) :
    lfsCtzFind c d (blocks n) data.length pos =
      .ok (blocks i, 4 * pointers i + (pos - blockStart c i)) :=
  Lfs.lfsCtzFind_eq (h.isFile hbegun) hlo hhi hpos

theorem take (h : Holds c d blocks n data) (hi : i ≤ n) (hlen : len ≤ data.length)
    (hlo : blockStart c i ≤ len) (hhi : len ≤ blockStart c (i + 1)) :
    Holds c d blocks i (data.take len) := by
  have hbound := h.bound
  have hsize := h.size_lt
  have hlength : (data.take len).length = len := by simp; omega
  exact {
    inside := fun j hj => h.inside j (by omega)
    pointer := fun j hj => h.pointer j (by omega)
    bound := by omega
    size_lt := by omega
    start := by omega
    stop := by omega
    distinct := fun j hj => h.distinct j (by omega)
    byte := fun pos hpos => by rw [h.byte pos (by omega), List.getElem_take] }

theorem prog (h : Holds c d blocks n data)
    (hroom : data.length + new.length ≤ blockStart c (n + 1))
    (hsize : data.length + new.length < 2 ^ 32) :
    Holds c
      (d.prog (blocks n) (4 * pointers n + (data.length - blockStart c n)) new) blocks n
      (data ++ new) := by
  have hbound := h.bound
  have hstart := h.start
  have hlength : (data ++ new).length = data.length + new.length := List.length_append
  have hsame : ∀ j < n,
      d.prog (blocks n) (4 * pointers n + (data.length - blockStart c n)) new (blocks j) =
        d (blocks j) :=
    fun j hj => Blocks.prog_of_ne (h.distinct n (Nat.le_refl n) j hj)
  refine ⟨⟨⟨h.inside, fun j hj k hk => ?_⟩, hbound, by omega, by omega, by omega⟩, h.distinct,
    fun pos hpos => ?_⟩
  · rw [← h.pointer j hj k hk]
    rcases Nat.lt_or_eq_of_le hj with hlt | rfl
    · exact Blocks.pointer_congr (hsame j hlt)
    · rw [Blocks.pointer, Blocks.prog_self, Memory.read_write_of_le (by omega), Blocks.pointer]
  · obtain ⟨i, hi, hlo, hhi⟩ := exists_block c (show pos < 2 ^ 32 by omega)
    have hin : i ≤ n := index_le_of_lt hlo (by omega)
    rcases Nat.lt_or_ge pos data.length with hold | hnew
    · rw [List.getElem_append_left hold, ← h.byte pos hold, byteAt, byteAt,
        lfsCtzIndex_eq hi (by omega) hlo hhi]
      dsimp only
      rcases Nat.lt_or_eq_of_le hin with hlt | rfl
      · rw [hsame i hlt]
      · rw [Blocks.prog_self, Memory.write_of_lt (by omega)]
    · obtain rfl : i = n := Nat.le_antisymm hin (index_le_of_lt (Nat.le_trans hstart hnew) hhi)
      rw [List.getElem_append_right hnew, byteAt, lfsCtzIndex_eq hi (by omega) hlo hhi]
      dsimp only
      rw [Blocks.prog_self, Memory.write, if_pos (by omega), List.getD_eq_getElem?_getD,
        List.getElem?_eq_getElem (by omega), Option.getD_some]
      congr 1
      omega

theorem update_distinct (h : Holds c d blocks n data) (hle : i ≤ n + 1)
    (hfresh : ∀ j ≤ n, blocks j ≠ nblock) :
    ∀ k ≤ i, ∀ j < k,
      Function.update blocks i nblock j ≠ Function.update blocks i nblock k := by
  intro k hk j hj
  rw [Function.update_of_ne (show j ≠ i by omega)]
  rcases Nat.lt_or_eq_of_le hk with hlt | rfl
  · rw [Function.update_of_ne (Nat.ne_of_lt hlt)]
    exact h.distinct k (by omega) j hj
  · rw [Function.update_self]
    exact hfresh j (by omega)

/-- A copy of what the last block holds takes its place. -/
theorem copy (h : Holds c d blocks n data) (hin : nblock < c.blockCount)
    (hfresh : ∀ j ≤ n, blocks j ≠ nblock) (hsame : ∀ j < n, e (blocks j) = d (blocks j))
    (hcopy : ∀ k < 4 * pointers n + (data.length - blockStart c n),
      e nblock k = d (blocks n) k) :
    Holds c e (Function.update blocks n nblock) n data := by
  obtain ⟨htail, hbytes⟩ := h.toIsTail.copy hin hsame hcopy
  exact ⟨htail, h.update_distinct (Nat.le_succ n) hfresh,
    fun pos hpos => by rw [hbytes pos hpos, h.byte pos hpos]⟩

theorem single (hin : nblock < c.blockCount) (hlen : data.length ≤ c.blockSize)
    (hdata : Memory.read (d nblock) 0 data.length = data) :
    Holds c d (fun _ => nblock) 0 data := by
  have hsize := c.blockSize_lt
  have hstart : blockStart c (0 + 1) = c.blockSize := by simp [blockStart, pointers]
  refine ⟨⟨⟨fun _ _ => hin, fun j hj k hk => ?_⟩, by omega, by omega, Nat.zero_le _, by omega⟩,
    fun j hj k hk => by omega, fun pos hpos => ?_⟩
  · obtain rfl : j = 0 := by omega
    simp [pointers] at hk
  · rw [byteAt, lfsCtzIndex_eq (i := 0) (by omega) (by omega) (Nat.zero_le _) (by omega)]
    have hget : (Memory.read (d nblock) 0 data.length)[pos]? = some data[pos] := by
      rw [hdata, List.getElem?_eq_getElem hpos]
    simpa [Memory.read, hpos, pointers, blockStart] using hget

end Holds

/-! ## The blocks of a list -/

/-- The list is determined by its last block. -/
theorem IsList.unique {blocks' : Nat → Nat} (h : IsList c d blocks n) (h' : IsList c e blocks' n)
    (hlast : blocks' n = blocks n) (hsame : ∀ j ≤ n, e (blocks j) = d (blocks j)) :
    ∀ k ≤ n, blocks' (n - k) = blocks (n - k) := by
  intro k
  induction k with
  | zero => exact fun _ => hlast
  | succ k ih =>
    intro hk
    have hfirst : 0 < pointers (n - k) := (lt_pointers_iff (by omega)).2 (Nat.zero_le _)
    have hprev := h.pointer (n - k) (by omega) 0 hfirst
    have hprev' := h'.pointer (n - k) (by omega) 0 hfirst
    rw [ih (by omega), Blocks.pointer_congr (hsame (n - k) (by omega)), hprev] at hprev'
    rw [Nat.pow_zero, Nat.sub_sub] at hprev'
    exact hprev'.symm

/-- The block is one of the list that ends in `head`. -/
def Uses (c : Config) (d : Blocks) (head size b : Nat) : Prop :=
  ∃ blocks n, IsFile c d blocks n size ∧ blocks n = head ∧ ∃ i ≤ n, blocks i = b

/-- The block is one of the list that a file of this size goes on in at an offset of `block`. -/
def TailUses (c : Config) (d : Blocks) (block off size b : Nat) : Prop :=
  ∃ blocks n, IsTail c d blocks n size ∧ blocks n = block ∧
    off = 4 * pointers n + (size - blockStart c n) ∧ ∃ i ≤ n, blocks i = b

/-- The data lies in a list that ends in `head`. -/
def Stored (c : Config) (d : Blocks) (head : Nat) (data : List UInt8) : Prop :=
  ∃ blocks n, Holds c d blocks n data ∧ blockStart c n < data.length ∧ blocks n = head

/-- The data lies in a list that goes on at an offset of `block`. -/
def Tail (c : Config) (d : Blocks) (block off : Nat) (data : List UInt8) : Prop :=
  ∃ blocks n, Holds c d blocks n data ∧ blocks n = block ∧
    off = 4 * pointers n + (data.length - blockStart c n)

/-- The same with some of the data in `block`. -/
def Written (c : Config) (d : Blocks) (block off : Nat) (data : List UInt8) : Prop :=
  ∃ blocks n, Holds c d blocks n data ∧ blocks n = block ∧
    off = 4 * pointers n + (data.length - blockStart c n) ∧ blockStart c n < data.length

/-- `block` has index `i` in the list. -/
def At (c : Config) (d : Blocks) (head : Nat) (data : List UInt8) (i block : Nat) : Prop :=
  ∃ blocks n, Holds c d blocks n data ∧ blockStart c n < data.length ∧ blocks n = head ∧
    i ≤ n ∧ blocks i = block

variable {head block size b : Nat} {d' : Blocks} {allocs : List Alloc}

theorem IsFile.index_unique {blocks' : Nat → Nat} {n' : Nat} (h : IsFile c d blocks n size)
    (h' : IsFile c e blocks' n' size) : n' = n := by
  have hbegun := h.begun
  have hbegun' := h'.begun
  exact Nat.le_antisymm
    (index_le_of_lt (Nat.le_refl _) (Nat.lt_of_lt_of_le hbegun' h.stop))
    (index_le_of_lt (Nat.le_refl _) (Nat.lt_of_lt_of_le hbegun h'.stop))

theorem Stored.congr (h : Stored c d head data)
    (hsame : ∀ b, Uses c d head data.length b → e b = d b) : Stored c e head data := by
  obtain ⟨blocks, n, hh, hbegun, hlast⟩ := h
  exact ⟨blocks, n,
    hh.congr fun j hj => hsame _ ⟨blocks, n, hh.isFile hbegun, hlast, j, hj, rfl⟩, hbegun, hlast⟩

/-- Where the blocks of a list are left as they are, the list is the same. -/
theorem Stored.uses_congr (h : Stored c d head data)
    (hsame : ∀ b, Uses c d head data.length b → e b = d b)
    (hb : Uses c e head data.length b) : Uses c d head data.length b := by
  obtain ⟨blocks, n, hh, hbegun, hlast⟩ := h
  obtain ⟨blocks', n', hfile', hlast', i, hi, hib⟩ := hb
  have hfile := hh.isFile hbegun
  obtain rfl := hfile.index_unique hfile'
  have hkeep : ∀ j ≤ n', e (blocks j) = d (blocks j) :=
    fun j hj => hsame _ ⟨blocks, n', hfile, hlast, j, hj, rfl⟩
  have huniq := hfile.toIsList.unique hfile'.toIsList (hlast'.trans hlast.symm) hkeep (n' - i)
    (Nat.sub_le _ _)
  rw [Nat.sub_sub_self hi] at huniq
  exact ⟨blocks, n', hfile, hlast, i, hi, huniq ▸ hib⟩

theorem Uses.congr (hb : Uses c d head size b) (hsame : ∀ b, Uses c d head size b → e b = d b) :
    Uses c e head size b := by
  obtain ⟨blocks, n, hfile, hlast, i, hi, hib⟩ := hb
  exact ⟨blocks, n, hfile.congr fun j hj => hsame _ ⟨blocks, n, hfile, hlast, j, hj, rfl⟩, hlast,
    i, hi, hib⟩

theorem not_uses_zero : ¬Uses c d head 0 b :=
  fun ⟨_, _, hfile, _⟩ => Nat.not_lt_zero _ hfile.begun

theorem not_uses_inline : ¬Uses c d blockInline size b := by
  rintro ⟨blocks, n, hfile, hlast, -⟩
  have hin := hfile.inside n (Nat.le_refl n)
  have hcount := c.blockCount_le
  omega

theorem Written.stored (h : Written c d block off data) : Stored c d block data :=
  let ⟨blocks, n, hh, hlast, _, hbegun⟩ := h
  ⟨blocks, n, hh, hbegun, hlast⟩

theorem Written.tail (h : Written c d block off data) : Tail c d block off data :=
  let ⟨blocks, n, hh, hlast, hoff, _⟩ := h
  ⟨blocks, n, hh, hlast, hoff⟩

/-! ## Places in a list -/

theorem lfsCtzIndex_lt (c : Config) (h : pos < 2 ^ 32) :
    (lfsCtzIndex c pos).2 < c.blockSize := by
  obtain ⟨-, hlo, hhi, hoff⟩ := lfsCtzIndex_spec c h
  rw [blockStart] at hhi
  omega

theorem lfsCtzIndex_add (h : pos + len < 2 ^ 32)
    (hlt : (lfsCtzIndex c pos).2 + len < c.blockSize) :
    lfsCtzIndex c (pos + len) = ((lfsCtzIndex c pos).1, (lfsCtzIndex c pos).2 + len) := by
  obtain ⟨hi, hlo, hhi, hoff⟩ := lfsCtzIndex_spec c (show pos < 2 ^ 32 by omega)
  have hnext : blockStart c ((lfsCtzIndex c pos).1 + 1) = blockStart c (lfsCtzIndex c pos).1 +
      (c.blockSize - 4 * pointers (lfsCtzIndex c pos).1) := rfl
  rw [lfsCtzIndex_eq hi h (by omega) (by omega), hoff]
  congr 1
  omega

theorem blockStart_add (h : pos < 2 ^ 32) (heq : (lfsCtzIndex c pos).2 + len = c.blockSize) :
    blockStart c ((lfsCtzIndex c pos).1 + 1) = pos + len := by
  obtain ⟨hi, hlo, hhi, hoff⟩ := lfsCtzIndex_spec c h
  rw [blockStart] at hhi ⊢
  omega

theorem Stored.size_lt (h : Stored c d head data) : data.length < 2 ^ 32 :=
  let ⟨_, _, hh, _⟩ := h
  hh.size_lt

/-- `lfs_ctz_find` finds every position. -/
theorem Stored.find (h : Stored c d head data) (hpos : pos < data.length) :
    ∃ block, lfsCtzFind c d head data.length pos = .ok (block, (lfsCtzIndex c pos).2) ∧
      At c d head data (lfsCtzIndex c pos).1 block := by
  have hsize := h.size_lt
  obtain ⟨blocks, n, hh, hbegun, hlast⟩ := h
  obtain ⟨-, hlo, hhi, hoff⟩ := lfsCtzIndex_spec c (show pos < 2 ^ 32 by omega)
  refine ⟨blocks (lfsCtzIndex c pos).1, ?_, blocks, n, hh, hbegun, hlast, ?_, rfl⟩
  · rw [← hlast, hh.lfsCtzFind_eq hbegun hlo hhi hpos, hoff]
  · exact index_le_of_lt hlo (Nat.lt_of_lt_of_le hpos hh.stop)

theorem At.congr (h : At c d head data i block)
    (hsame : ∀ b, Uses c d head data.length b → e b = d b) : At c e head data i block := by
  obtain ⟨blocks, n, hh, hbegun, hlast, hi, hblock⟩ := h
  exact ⟨blocks, n,
    hh.congr fun j hj => hsame _ ⟨blocks, n, hh.isFile hbegun, hlast, j, hj, rfl⟩, hbegun, hlast,
    hi, hblock⟩

theorem At.read_eq (h : At c d head data i block) (hi : (lfsCtzIndex c pos).1 = i)
    (hoff : (lfsCtzIndex c pos).2 + len ≤ c.blockSize) (hlen : pos + len ≤ data.length) :
    d.read c block (lfsCtzIndex c pos).2 len = .ok ((data.drop pos).take len) := by
  obtain ⟨blocks, n, hh, hbegun, hlast, hin, hblock⟩ := h
  have hsize := hh.size_lt
  obtain ⟨-, hlo, hhi, hplace⟩ := lfsCtzIndex_spec c (show pos < 2 ^ 32 by omega)
  rw [hplace] at hoff ⊢
  rw [hi] at hlo hhi hoff ⊢
  rw [← hblock]
  refine hh.read_eq hin hlo ?_ hlen
  rw [blockStart] at hhi ⊢
  omega

theorem At.stored (h : At c d head data i block) : Stored c d head data :=
  let ⟨blocks, n, hh, hbegun, hlast, _⟩ := h
  ⟨blocks, n, hh, hbegun, hlast⟩

/-- What `lfs_ctz_traverse` passes are the blocks of the file, each once, and `lfs_ctz_find` leads
to none but them, where it finds the byte of every position. -/
theorem traverse_and_find (h : Stored c d head data) :
    ∃ passed, lfsCtzTraverse c d head data.length = .ok passed ∧ passed.Nodup ∧
      (∀ b, b ∈ passed ↔ Uses c d head data.length b) ∧
      ∀ pos (hpos : pos < data.length), ∃ b ∈ passed, ∃ off,
        lfsCtzFind c d head data.length pos = .ok (b, off) ∧ d b off = data[pos] := by
  obtain ⟨blocks, n, hh, hbegun, rfl⟩ := h
  have hfile := hh.isFile hbegun
  have hmem : ∀ b, b ∈ downFrom blocks n ↔ ∃ i ≤ n, blocks i = b := fun b => by
    simp only [downFrom, List.mem_map, List.mem_reverse, List.mem_range, Nat.lt_succ_iff]
  refine ⟨downFrom blocks n, lfsCtzTraverse_eq hfile, ?_, fun b => ?_, fun pos hpos => ?_⟩
  · refine List.Nodup.map_on (fun i hi j hj hij => ?_) (List.nodup_reverse.2 List.nodup_range)
    simp only [List.mem_reverse, List.mem_range] at hi hj
    by_contra hne
    rcases Nat.lt_or_gt_of_ne hne with hlt | hlt
    · exact hh.distinct j (by omega) i hlt hij
    · exact hh.distinct i (by omega) j hlt hij.symm
  · rw [hmem]
    constructor
    · rintro ⟨i, hi, hb⟩
      exact ⟨blocks, n, hfile, rfl, i, hi, hb⟩
    · rintro ⟨blocks', n', hfile', hlast, i, hi, hb⟩
      obtain rfl := hfile.index_unique hfile'
      have huniq := hfile.toIsList.unique hfile'.toIsList hlast (fun _ _ => rfl) (n' - i)
        (Nat.sub_le _ _)
      rw [Nat.sub_sub_self hi] at huniq
      exact ⟨i, hi, huniq ▸ hb⟩
  · have hsize := hh.size_lt
    obtain ⟨-, hlo, hhi, hoff⟩ := lfsCtzIndex_spec c (show pos < 2 ^ 32 by omega)
    have hle : (lfsCtzIndex c pos).1 ≤ n := index_le_of_lt hlo (Nat.lt_of_lt_of_le hpos hh.stop)
    refine ⟨_, (hmem _).2 ⟨_, hle, rfl⟩, _, hh.lfsCtzFind_eq hbegun hlo hhi hpos, ?_⟩
    rw [← hoff]
    exact hh.byte pos hpos

/-- A file of two blocks, 3 and 4. -/
def pairData : List UInt8 := List.replicate 4096 1 ++ List.replicate 4000 2

def pairBlocks : Blocks := fun b k =>
  if b = 4 then if k = 0 then 3 else if k < 4 then 0 else 2 else 1

theorem length_pairData : pairData.length = 8096 := by
  rw [pairData, List.length_append, List.length_replicate, List.length_replicate]

theorem getElem_pairData (h : pos < pairData.length) :
    pairData[pos] = if pos < 4096 then 1 else 2 := by
  simp only [pairData, List.getElem_append, List.length_replicate, List.getElem_replicate]
  split <;> rfl

theorem holds_pairData : Holds (lfsCfg 0x8000) pairBlocks (fun i => 3 + i) 1 pairData := by
  have hfirst : blockStart (lfsCfg 0x8000) (0 + 1) = 4096 := by decide
  have hsecond : blockStart (lfsCfg 0x8000) 1 = 4096 := hfirst
  have hthird : blockStart (lfsCfg 0x8000) (1 + 1) = 4096 + 4092 := by decide
  have hlen := length_pairData
  refine ⟨⟨⟨fun i hi => ?_, fun i hi k hk => ?_⟩, by decide, by omega, by omega, by omega⟩,
    fun i _ j hj => by omega, fun pos hpos => ?_⟩
  · change 3 + i < 8
    omega
  · rcases Nat.eq_zero_or_pos i with rfl | hpos
    · exact absurd hk (Nat.not_lt_zero _)
    · obtain rfl : i = 1 := by omega
      obtain rfl : k = 0 := Nat.lt_one_iff.1 hk
      decide
  · rw [getElem_pairData]
    split
    · next hlt =>
      rw [byteAt, lfsCtzIndex_eq (i := 0) (by omega) (by omega) (Nat.zero_le _) (by omega)]
      rfl
    · next hge =>
      rw [byteAt, lfsCtzIndex_eq (i := 1) (by omega) (by omega) (by omega) (by omega), hsecond]
      have hptr : 4 * pointers 1 = 4 := by decide
      simp [pairBlocks, hptr]

theorem begun_pairData : blockStart (lfsCfg 0x8000) 1 < pairData.length := by
  rw [length_pairData]
  decide

theorem stored_pairData : Stored (lfsCfg 0x8000) pairBlocks 4 pairData :=
  ⟨_, 1, holds_pairData, begun_pairData, rfl⟩

/-- Block 3 is passed, which only the pointer in block 4 leads to. -/
theorem traverse_and_find_pair :
    ∃ passed, lfsCtzTraverse (lfsCfg 0x8000) pairBlocks 4 pairData.length = .ok passed ∧
      passed.Nodup ∧ 3 ∈ passed ∧
      ∀ pos (hpos : pos < pairData.length), ∃ b ∈ passed, ∃ off,
        lfsCtzFind (lfsCfg 0x8000) pairBlocks 4 pairData.length pos = .ok (b, off) ∧
          pairBlocks b off = pairData[pos] :=
  let ⟨passed, hpassed, hnodup, huses, hfind⟩ := traverse_and_find stored_pairData
  ⟨passed, hpassed, hnodup,
    (huses 3).2 ⟨_, 1, holds_pairData.isFile begun_pairData, rfl, 0, Nat.zero_le _, rfl⟩, hfind⟩

/-- The list up to a block holds the data up to a position in it. -/
theorem At.take (h : At c d head data i block) (hlen : len < data.length)
    (hi : (lfsCtzIndex c len).1 = i) : At c d block (data.take (len + 1)) i block := by
  obtain ⟨blocks, n, hh, hbegun, hlast, hin, hblock⟩ := h
  have hsize := hh.size_lt
  obtain ⟨-, hlo, hhi, -⟩ := lfsCtzIndex_spec c (show len < 2 ^ 32 by omega)
  rw [hi] at hlo hhi
  refine ⟨blocks, i, hh.take hin hlen (Nat.le_succ_of_le hlo) hhi, ?_, hblock, Nat.le_refl i,
    hblock⟩
  rw [List.length_take]
  omega

/-! ## Going on with a list -/

theorem Tail.off_le (h : Tail c d block off data) : off ≤ c.blockSize := by
  obtain ⟨blocks, n, hh, hlast, hoff⟩ := h
  have hbound := hh.bound
  have hstop := hh.stop
  have hptrs := pointers_le (i := n) (k := 32) (by omega) (Nat.le_refl _)
  have hmin := c.blockSize_ge
  rw [blockStart] at hstop
  omega

theorem Tail.inside (h : Tail c d block off data) : block < c.blockCount := by
  obtain ⟨blocks, n, hh, rfl, -⟩ := h
  exact hh.inside n (Nat.le_refl n)

theorem Tail.prog (h : Tail c d block off data) (hnew : new ≠ [])
    (hroom : off + new.length ≤ c.blockSize) (hsize : data.length + new.length < 2 ^ 32) :
    Written c (d.prog block off new) block (off + new.length) (data ++ new) := by
  obtain ⟨blocks, n, hh, rfl, rfl⟩ := h
  have hstart := hh.start
  have hpos := List.length_pos_iff.2 hnew
  refine ⟨blocks, n, hh.prog ?_ hsize, rfl, ?_, ?_⟩
  · rw [blockStart]
    omega
  · rw [List.length_append]
    omega
  · rw [List.length_append]
    omega

/-- `lfs_ctz_extend` of the data there is. -/
theorem Stored.extend (h : data = [] ∨ Stored c d head data)
    (hin : ∀ b ∈ handedOut allocs, b < c.blockCount)
    (hfresh : ∀ b ∈ handedOut allocs, ¬Uses c d head data.length b)
    (hserved : Served allocs) :
    ∃ d' nblock off, lfsCtzExtend c head data.length d allocs = (d', .ok (nblock, off)) ∧
      nblock ∈ handedOut allocs ∧ off < c.blockSize ∧ Tail c d' nblock off data := by
  have hsize : data.length < 2 ^ 32 := by
    rcases h with rfl | h
    · simp
    · exact h.size_lt
  obtain ⟨hi, hlo, hhi, hplace⟩ := lfsCtzIndex_spec c hsize
  have hlt := lfsCtzIndex_lt c hsize
  rw [hplace] at hlt
  obtain ⟨blocks, n, hfile, hh, hlast⟩ : ∃ blocks n,
      (0 < data.length → IsFile c d blocks n data.length) ∧
        (0 < data.length → Holds c d blocks n data) ∧ blocks n = head := by
    rcases h with rfl | ⟨blocks, n, hh, hbegun, hlast⟩
    · exact ⟨fun _ => head, 0, by simp, by simp, rfl⟩
    · exact ⟨blocks, n, fun _ => hh.isFile hbegun, fun _ => hh, hlast⟩
  have hfree : 0 < data.length → ∀ b ∈ handedOut allocs, ∀ j ≤ n, blocks j ≠ b :=
    fun hpos b hb j hj hjb => hfresh b hb ⟨blocks, n, hfile hpos, hlast, j, hj, hjb⟩
  obtain ⟨d', nblock, hext, hmem, htail, hbytes⟩ :=
    lfsCtzExtend_spec hfile hsize hlo hhi hin hfree hserved
  rw [hlast] at hext
  refine ⟨d', nblock, _, hext, hmem, by omega, _, _, ⟨htail, ?_, fun pos hpos => ?_⟩,
    Function.update_self _ _ _, rfl⟩
  · rcases Nat.eq_zero_or_pos data.length with hzero | hpos
    · have hi0 : (lfsCtzIndex c data.length).1 = 0 := by
        have := index_le_of_lt (c := c) (j := 0) hlo (by
          rw [hzero]
          exact blockStart_lt_succ (c := c) (i := 0) (by omega))
        omega
      intro k hk j hj
      omega
    · have hstop := (hfile hpos).stop
      refine (hh hpos).update_distinct ?_ (hfree hpos nblock hmem)
      by_contra hgt
      have hless := blockStart_mono (c := c)
        (show n + 1 + 1 ≤ (lfsCtzIndex c data.length).1 by omega)
      have hn := index_lt (by have := (hfile hpos).bound; omega)
        (Nat.le_of_lt (hfile hpos).begun) hsize
      have hnext := blockStart_lt_succ (c := c) (i := n + 1) (by omega)
      omega
  · rw [hbytes pos hpos, (hh (by omega)).byte pos hpos]

theorem TailUses.of_holds {blocks : Nat → Nat} (h : Holds c d blocks n data)
    (hlast : blocks n = block) (hoff : off = 4 * pointers n + (data.length - blockStart c n))
    (hi : i ≤ n) : TailUses c d block off data.length (blocks i) :=
  ⟨blocks, n, h.toIsTail, hlast, hoff, i, hi, rfl⟩

theorem Tail.copy (h : Tail c d block off data) (hin : nblock < c.blockCount)
    (hfresh : ¬TailUses c d block off data.length nblock)
    (hsame : ∀ b, TailUses c d block off data.length b → e b = d b)
    (hcopy : ∀ k < off, e nblock k = d block k) : Tail c e nblock off data := by
  obtain ⟨blocks, n, hh, rfl, hoff⟩ := h
  refine ⟨_, n, hh.copy hin (fun j hj hjb => hfresh (hjb ▸ .of_holds hh rfl hoff hj))
    (fun j hj => hsame _ (.of_holds hh rfl hoff (by omega))) (hoff ▸ hcopy),
    Function.update_self _ _ _, hoff⟩

theorem Written.copy (h : Written c d block off data) (hin : nblock < c.blockCount)
    (hfresh : ¬TailUses c d block off data.length nblock)
    (hsame : ∀ b, TailUses c d block off data.length b → e b = d b)
    (hcopy : ∀ k < off, e nblock k = d block k) : Written c e nblock off data := by
  obtain ⟨blocks, n, hh, rfl, hoff, hbegun⟩ := h
  refine ⟨_, n, hh.copy hin (fun j hj hjb => hfresh (hjb ▸ .of_holds hh rfl hoff hj))
    (fun j hj => hsame _ (.of_holds hh rfl hoff (by omega))) (hoff ▸ hcopy),
    Function.update_self _ _ _, hoff, hbegun⟩

theorem Tail.single (hin : nblock < c.blockCount) (hlen : data.length ≤ c.blockSize)
    (hdata : Memory.read (d nblock) 0 data.length = data) :
    Tail c d nblock data.length data :=
  ⟨fun _ => nblock, 0, Holds.single hin hlen hdata, rfl, by simp [pointers, blockStart]⟩

theorem Written.single (hin : nblock < c.blockCount) (hlen : data.length ≤ c.blockSize)
    (hdata : Memory.read (d nblock) 0 data.length = data) (hne : data ≠ []) :
    Written c d nblock data.length data :=
  ⟨fun _ => nblock, 0, Holds.single hin hlen hdata, rfl, by simp [pointers, blockStart],
    List.length_pos_iff.2 hne⟩

/-- The blocks of a list are those found in any other way that leads to its last one. -/
theorem Holds.uses (h : Holds c d blocks n data) (hbegun : blockStart c n < data.length)
    (hb : Uses c d (blocks n) data.length b) : ∃ i ≤ n, blocks i = b := by
  obtain ⟨blocks', n', hfile', hlast', i, hi, hib⟩ := hb
  obtain rfl := (h.isFile hbegun).index_unique hfile'
  have huniq := h.toIsList.unique hfile'.toIsList hlast' (fun _ _ => rfl) (n' - i) (Nat.sub_le _ _)
  rw [Nat.sub_sub_self hi] at huniq
  exact ⟨i, hi, huniq ▸ hib⟩

theorem Written.uses (h : Written c d block off data) (hb : Uses c d block data.length b) :
    TailUses c d block off data.length b := by
  obtain ⟨blocks, n, hh, rfl, hoff, hbegun⟩ := h
  obtain ⟨i, hi, rfl⟩ := hh.uses hbegun hb
  exact .of_holds hh rfl hoff hi

theorem At.uses (h : At c d head data i block) (hlen : len < data.length)
    (hi : (lfsCtzIndex c len).1 = i) (hb : Uses c d block (len + 1) b) :
    Uses c d head data.length b := by
  obtain ⟨blocks, n, hh, hbegun, hlast, hin, rfl⟩ := h
  have hsize := hh.size_lt
  obtain ⟨-, hlo, hhi, -⟩ := lfsCtzIndex_spec c (show len < 2 ^ 32 by omega)
  rw [hi] at hlo hhi
  have hlength : (data.take (len + 1)).length = len + 1 := by
    rw [List.length_take]
    omega
  rw [← hlength] at hb
  have htake : Holds c d blocks i (data.take (len + 1)) :=
    hh.take hin hlen (Nat.le_succ_of_le hlo) hhi
  obtain ⟨j, hj, rfl⟩ := htake.uses (by omega) hb
  exact ⟨blocks, n, hh.isFile hbegun, hlast, j, by omega, rfl⟩

/-! ## Appending -/

/-- Appending with `lfs_ctz_extend` is copy on write: whatever the allocator delivers of free
blocks, the list there is keeps its data, and what is programmed behind the offset delivered makes
a second list with the new data, too. -/
theorem lfsCtzExtend_cow (h : Stored c d head data)
    (hin : ∀ b ∈ handedOut allocs, b < c.blockCount)
    (hfresh : ∀ b ∈ handedOut allocs, ¬Uses c d head data.length b) :
    (∀ b ∉ handedOut allocs, (lfsCtzExtend c head data.length d allocs).1 b = d b) ∧
      Stored c (lfsCtzExtend c head data.length d allocs).1 head data ∧
      (¬Served allocs ∧ (∃ e, (lfsCtzExtend c head data.length d allocs).2 = .error e) ∨
        Served allocs ∧ ∃ d' nblock off,
          lfsCtzExtend c head data.length d allocs = (d', .ok (nblock, off)) ∧
          ∀ new, new ≠ [] → off + new.length ≤ c.blockSize → data.length + new.length < 2 ^ 32 →
            Stored c (d'.prog nblock off new) nblock (data ++ new) ∧
              Stored c (d'.prog nblock off new) head data) := by
  have hkeep : ∀ b, Uses c d head data.length b →
      (lfsCtzExtend c head data.length d allocs).1 b = d b :=
    fun b hb => lfsCtzExtend_frame fun hmem => hfresh b hmem hb
  refine ⟨fun b hb => lfsCtzExtend_frame hb, h.congr hkeep, ?_⟩
  by_cases hserved : Served allocs
  · obtain ⟨d', nblock, off, hext, hmem, -, htail⟩ := Stored.extend (.inr h) hin hfresh hserved
    refine .inr ⟨hserved, d', nblock, off, hext, fun new hnew hroom hmax => ?_⟩
    rw [hext] at hkeep
    refine ⟨(htail.prog hnew hroom hmax).stored, h.congr fun b hb => ?_⟩
    have hne : b ≠ nblock := fun heq => hfresh nblock hmem (heq ▸ hb)
    rw [Blocks.prog_of_ne hne]
    exact hkeep b hb
  · exact .inl ⟨hserved, lfsCtzExtend_unserved _ _ _ _ hserved⟩

theorem lfsCtzExtend_cow_pair :
    Stored (lfsCfg 0x8000) (lfsCtzExtend (lfsCfg 0x8000) 4 pairData.length pairBlocks
        [.bad 5 fun _ => 0, .good 6 fun _ => 0xff]).1 4 pairData ∧
      ∃ d' nblock off, lfsCtzExtend (lfsCfg 0x8000) 4 pairData.length pairBlocks
          [.bad 5 fun _ => 0, .good 6 fun _ => 0xff] = (d', .ok (nblock, off)) ∧
        Stored (lfsCfg 0x8000) (d'.prog nblock off [9]) nblock (pairData ++ [9]) := by
  have hin : ∀ b ∈ handedOut [.bad 5 fun _ => 0, .good 6 fun _ => 0xff],
      b < (lfsCfg 0x8000).blockCount := by decide
  have hfresh : ∀ b ∈ handedOut [.bad 5 fun _ => 0, .good 6 fun _ => 0xff],
      ¬Uses (lfsCfg 0x8000) pairBlocks 4 pairData.length b := by
    rintro b hb huses
    obtain ⟨i, hi, rfl⟩ := holds_pairData.uses begun_pairData huses
    have hb : 3 + i = 5 ∨ 3 + i = 6 := by simpa [handedOut, Alloc.block?] using hb
    omega
  obtain ⟨-, hold, ⟨hno, -⟩ | ⟨-, d', nblock, off, hext, hnew⟩⟩ :=
    lfsCtzExtend_cow stored_pairData hin hfresh
  · exact absurd trivial hno
  · have hplace : (lfsCtzExtend (lfsCfg 0x8000) 4 pairData.length pairBlocks
        [.bad 5 fun _ => 0, .good 6 fun _ => 0xff]).2 = .ok (6, 4004) := by
      rw [length_pairData]
      rfl
    obtain ⟨rfl, rfl⟩ : nblock = 6 ∧ off = 4004 := by
      rw [hext] at hplace
      simpa using hplace
    exact ⟨hold, d', 6, 4004, hext,
      (hnew [9] (by decide) (by decide) (by rw [length_pairData]; decide)).1⟩

end Bl616cl.Lfs
