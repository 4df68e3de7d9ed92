import Bl616cl.Lfs.Contents
import Bl616cl.Lfs.File

/-!
# littlefs: reading an open file

`lfs_file_flushedread` goes on where it was, or looks for the block anew. `Reader` says what its
place in the list is worth.
-/

namespace Bl616cl.Lfs

open Bl616cl.Lib

/-- The same file, at another place maybe. -/
structure File.ReadFrom (f g : File) : Prop where
  writing : g.writing = f.writing
  inl : g.inl = f.inl
  dirty : g.dirty = f.dirty
  errored : g.errored = f.errored
  append : g.append = f.append
  removed : g.removed = f.removed
  head : g.head = f.head
  size : g.size = f.size
  buffer : g.buffer = f.buffer

/-- While a file is read, its block is that of its position, or the next one is still to be looked
for, or there is nothing more to be read from the blocks around its position. -/
def File.Cursor (c : Config) (d : Blocks) (data : List UInt8) (f : File) : Prop :=
  (At c d f.head data (lfsCtzIndex c f.pos).1 f.block ∧
      (f.pos < f.size → f.off = (lfsCtzIndex c f.pos).2)) ∨
    (∃ i, At c d f.head data i f.block ∧ f.pos = blockStart c (i + 1) ∧ f.pos < f.size ∧
      f.off = c.blockSize) ∨
    f.size ≤ blockStart c (lfsCtzIndex c f.pos).1

/-- The file lies in a list of blocks. -/
structure Reader (c : Config) (d : Blocks) (data : List UInt8) (f : File) : Prop where
  inl : f.inl = false
  size : f.size = data.length
  list : data = [] ∨ Stored c d f.head data
  cursor : f.reading = true → f.Cursor c d data

/-- The file lies in the directory. -/
structure InlineReader (c : Config) (data : List UInt8) (f : File) : Prop where
  inl : f.inl = true
  size : f.size = data.length
  size_lt : f.size < c.blockSize
  buffer : Memory.read f.buffer 0 f.size = data
  cursor : f.reading = true → f.pos < f.size → f.off = f.pos

variable {c : Config} {d e : Blocks} {data : List UInt8} {f g : File} {nsize fuel : Nat}
  {fault : File → Option Err}

theorem File.ReadFrom.refl (f : File) : f.ReadFrom f :=
  ⟨rfl, rfl, rfl, rfl, rfl, rfl, rfl, rfl, rfl⟩

theorem File.ReadFrom.trans {f g h : File} (h₁ : f.ReadFrom g) (h₂ : g.ReadFrom h) :
    f.ReadFrom h :=
  ⟨h₂.writing.trans h₁.writing, h₂.inl.trans h₁.inl, h₂.dirty.trans h₁.dirty,
    h₂.errored.trans h₁.errored, h₂.append.trans h₁.append, h₂.removed.trans h₁.removed,
    h₂.head.trans h₁.head, h₂.size.trans h₁.size, h₂.buffer.trans h₁.buffer⟩

theorem Reader.congr (h : Reader c d data f)
    (hsame : ∀ b, Uses c d f.head data.length b → e b = d b) : Reader c e data f where
  inl := h.inl
  size := h.size
  list := h.list.imp_right fun hs => hs.congr hsame
  cursor hreading := by
    rcases h.cursor hreading with ⟨hat, hoff⟩ | ⟨i, hat, hseam⟩ | hend
    · exact .inl ⟨hat.congr hsame, hoff⟩
    · exact .inr (.inl ⟨i, hat.congr hsame, hseam⟩)
    · exact .inr (.inr hend)

theorem take_drop_piece (data : List UInt8) (pos : Nat) {n k : Nat} (hk : k ≤ n) :
    (data.drop pos).take k ++ (data.drop (pos + k)).take (n - k) = (data.drop pos).take n := by
  rw [← List.drop_drop, List.take_add.symm, Nat.add_sub_cancel' hk]

theorem wp_faulty {σ α : Type} {x : Option Err} {a : α} {s : σ} {Q : α → σ → Prop}
    {E : Err → σ → Prop} :
    Wp (ofExcept (faulty x (.ok a))) s Q E ↔ (x = none → Q a s) ∧ ∀ e, x = some e → E e s := by
  cases x <;> simp [faulty]

namespace Reader

theorem readBlock_wp (h : Reader c d data f) (hpos : f.pos < f.size) :
    Wp (readBlock c d fault) f
      (fun _ g => Reader c d data g ∧
        At c d g.head data (lfsCtzIndex c g.pos).1 g.block ∧ g.off = (lfsCtzIndex c g.pos).2 ∧
        g.pos = f.pos ∧ f.ReadFrom g)
      (fun e g => fault g = some e) := by
  rw [h.size] at hpos
  have hstored : Stored c d f.head data := by
    rcases h.list with rfl | hs
    · exact absurd hpos (Nat.not_lt_zero _)
    · exact hs
  have hsize := hstored.size_lt
  unfold readBlock
  simp only [wp_bind, wp_get, h.inl, Bool.false_eq_true, if_false]
  split
  · obtain ⟨block, hfind, hat⟩ := hstored.find hpos
    rw [h.size, hfind]
    simp only [wp_bind, wp_faulty, wp_set]
    refine ⟨fun _ => ?_, fun e he => he⟩
    exact ⟨⟨rfl, rfl, h.list, fun _ => .inl ⟨hat, fun _ => rfl⟩⟩, hat, trivial, trivial,
      ⟨rfl, h.inl.symm, rfl, rfl, rfl, rfl, rfl, h.size.symm, rfl⟩⟩
  · next hcond =>
    obtain ⟨hreading, hoff⟩ : f.reading = true ∧ f.off ≠ c.blockSize := by simp_all
    have hplace : At c d f.head data (lfsCtzIndex c f.pos).1 f.block ∧
        f.off = (lfsCtzIndex c f.pos).2 := by
      rcases h.cursor hreading with ⟨hat, hp⟩ | ⟨-, -, -, -, hend⟩ | hend
      · exact ⟨hat, hp (h.size ▸ hpos)⟩
      · exact absurd hend hoff
      · obtain ⟨-, hlo, -⟩ := lfsCtzIndex_spec c (show f.pos < 2 ^ 32 by omega)
        rw [h.size] at hend
        omega
    exact ⟨h, hplace.1, hplace.2, rfl, .refl f⟩

theorem readPiece_wp (h : Reader c d data f)
    (hat : At c d f.head data (lfsCtzIndex c f.pos).1 f.block)
    (hoff : f.off = (lfsCtzIndex c f.pos).2) (hn : 0 < nsize)
    (hroom : f.pos + nsize ≤ f.size) (hsize : f.size < 2 ^ 32) :
    Wp (readPiece c d fault nsize) f
      (fun out g => Reader c d data g ∧ 0 < out.length ∧ out.length ≤ nsize ∧
        out = (data.drop f.pos).take out.length ∧ g.pos = f.pos + out.length ∧ f.ReadFrom g)
      (fun e g => fault g = some e) := by
  have hlt := lfsCtzIndex_lt c (show f.pos < 2 ^ 32 by omega)
  obtain ⟨diff, hdiff⟩ : ∃ diff, diff = min nsize (c.blockSize - f.off) := ⟨_, rfl⟩
  have hlen : ((data.drop f.pos).take diff).length = diff := by
    rw [List.length_take, List.length_drop, ← h.size]
    omega
  unfold readPiece
  simp only [wp_bind, wp_get, h.inl, Bool.false_eq_true, if_false]
  rw [← hdiff, hoff, hat.read_eq rfl (by omega) (by rw [← h.size]; omega)]
  simp only [wp_faulty, wp_set, wp_pure, hlen]
  refine ⟨fun _ => ?_, fun e he => he⟩
  refine ⟨⟨rfl, h.size, h.list, fun _ => ?_⟩, by omega, by omega, trivial, trivial,
    ⟨rfl, h.inl.symm, rfl, rfl, rfl, rfl, rfl, rfl, rfl⟩⟩
  rcases Nat.lt_or_ge ((lfsCtzIndex c f.pos).2 + diff) c.blockSize with hless | hend
  · have hadd := lfsCtzIndex_add (c := c) (show f.pos + diff < 2 ^ 32 by omega) hless
    refine .inl ⟨?_, fun _ => ?_⟩
    · change At c d f.head data (lfsCtzIndex c (f.pos + diff)).1 f.block
      rwa [hadd]
    · change (lfsCtzIndex c f.pos).2 + diff = (lfsCtzIndex c (f.pos + diff)).2
      rw [hadd]
  · -- the end of the block
    have hfull : (lfsCtzIndex c f.pos).2 + diff = c.blockSize := by omega
    have hnext := blockStart_add (c := c) (show f.pos < 2 ^ 32 by omega) hfull
    rcases Nat.lt_or_ge (f.pos + diff) f.size with hmore | hall
    · exact .inr (.inl ⟨_, hat, hnext.symm, hmore, hfull⟩)
    · refine .inr (.inr ?_)
      change f.size ≤ blockStart c (lfsCtzIndex c (f.pos + diff)).1
      obtain ⟨-, hlo, hhi, -⟩ := lfsCtzIndex_spec c (show f.pos + diff < 2 ^ 32 by omega)
      have hle : (lfsCtzIndex c f.pos).1 + 1 ≤ (lfsCtzIndex c (f.pos + diff)).1 :=
        index_le_of_lt (Nat.le_of_eq hnext) hhi
      have hmono := blockStart_mono (c := c) hle
      omega

theorem readLoop_wp (h : Reader c d data f) (hroom : f.pos + nsize ≤ f.size)
    (hsize : f.size < 2 ^ 32) (hfuel : nsize ≤ fuel) :
    Wp (readLoop c d fault fuel nsize) f
      (fun out g => Reader c d data g ∧ out = (data.drop f.pos).take nsize ∧
        g.pos = f.pos + nsize ∧ f.ReadFrom g)
      (fun e g => fault g = some e) := by
  induction fuel generalizing f nsize with
  | zero =>
    obtain rfl : nsize = 0 := by omega
    exact ⟨h, rfl, rfl, .refl f⟩
  | succ fuel ih =>
    rw [readLoop]
    split
    · next hzero =>
      subst hzero
      exact ⟨h, rfl, rfl, .refl f⟩
    · next hne =>
      refine (h.readBlock_wp (by omega)).bind ?_ fun _ _ he => he
      rintro ⟨⟩ g ⟨hg, hat, hoff, hpos, hfrom⟩
      have hgsize := hfrom.size
      refine (hg.readPiece_wp hat hoff (show 0 < nsize by omega) (by omega)
        (by omega)).bind ?_ fun _ _ he => he
      rintro out g' ⟨hg', houtpos, houtle, hout, hpos', hfrom'⟩
      have hgsize' := hfrom'.size
      refine wp_bind.2 ((ih hg' (show g'.pos + (nsize - out.length) ≤ g'.size by omega) (by omega)
        (by omega)).mono ?_ fun _ _ he => he)
      rintro rest g'' ⟨hg'', hrest, hpos'', hfrom''⟩
      refine ⟨hg'', ?_, by omega, (hfrom.trans hfrom').trans hfrom''⟩
      have hsplit := take_drop_piece data f.pos houtle
      rw [hrest, hpos', hpos, ← hsplit]
      congr 1
      rw [← hpos]
      exact hout

/-- `lfs_file_flushedread` of a file in a list of blocks. It fails where the device does. -/
theorem lfsFileFlushedread_wp (h : Reader c d data f) (n : Nat) :
    Wp (lfsFileFlushedread c d fault n) f
      (fun out g => Reader c d data g ∧ out = (data.drop f.pos).take n ∧
        g.pos = f.pos + out.length ∧ f.ReadFrom g)
      (fun e g => fault g = some e) := by
  unfold lfsFileFlushedread
  simp only [wp_bind, wp_get]
  split
  · next hend =>
    have hnil : data.drop f.pos = [] := List.drop_eq_nil_of_le (h.size ▸ hend)
    simp only [wp_pure, hnil, List.take_nil, List.length_nil, Nat.add_zero]
    exact ⟨h, trivial, trivial, .refl f⟩
  · next hmore =>
    have hsize : f.size < 2 ^ 32 := by
      rcases h.list with rfl | hs
      · rw [h.size]
        simp
      · rw [h.size]
        exact hs.size_lt
    have hroom : f.pos + min n (f.size - f.pos) ≤ f.size := by omega
    refine (h.readLoop_wp hroom hsize
      (Nat.le_refl _)).mono ?_ fun _ _ he => he
    rintro out g ⟨hg, hout, hpos, hfrom⟩
    have hlen : out.length = min n (f.size - f.pos) := by
      rw [hout, List.length_take, List.length_drop, ← h.size]
      omega
    refine ⟨hg, ?_, by omega, hfrom⟩
    rw [hout, List.take_eq_take_iff, List.length_drop, ← h.size]
    omega

end Reader

/-- What an inline file delivers from a position on. -/
theorem InlineReader.read_eq (h : InlineReader c data f) {pos n : Nat} (hn : pos + n ≤ f.size) :
    Memory.read f.buffer pos n = (data.drop pos).take n := by
  have hsplit := Memory.read_add (m := f.buffer) (i := 0) pos (f.size - pos)
  have hrest := Memory.read_add (m := f.buffer) (i := pos) n (f.size - pos - n)
  rw [Nat.add_sub_cancel' (by omega), Nat.zero_add] at hsplit
  rw [Nat.add_sub_cancel' (by omega)] at hrest
  rw [← h.buffer, hsplit, List.drop_left' (Memory.length_read), hrest,
    List.take_left' (Memory.length_read)]

theorem readLoop_zero : readLoop c d fault fuel 0 = pure [] := by
  cases fuel <;> rfl

/-- `lfs_file_flushedread` of an inline file. -/
theorem InlineReader.lfsFileFlushedread_wp (h : InlineReader c data f) (n : Nat) :
    Wp (lfsFileFlushedread c d fault n) f
      (fun out g => InlineReader c data g ∧ out = (data.drop f.pos).take n ∧
        g.pos = f.pos + out.length ∧ f.ReadFrom g)
      (fun _ _ => False) := by
  have hlt := h.size_lt
  unfold lfsFileFlushedread
  simp only [wp_bind, wp_get]
  split
  · next hend =>
    have hnil : data.drop f.pos = [] := List.drop_eq_nil_of_le (h.size ▸ hend)
    simp only [wp_pure, hnil, List.take_nil, List.length_nil, Nat.add_zero]
    exact ⟨h, trivial, trivial, .refl f⟩
  · next hmore =>
    have hpos : f.pos < f.size := Nat.not_le.1 hmore
    obtain ⟨k, hk⟩ : ∃ k, k = min n (f.size - f.pos) := ⟨_, rfl⟩
    have hout : (data.drop f.pos).take n = (data.drop f.pos).take k := by
      rw [List.take_eq_take_iff, List.length_drop, ← h.size]
      omega
    rw [← hk, hout]
    cases k with
    | zero => exact ⟨h, rfl, rfl, .refl f⟩
    | succ k =>
      rw [readLoop, if_neg (Nat.succ_ne_zero k)]
      have hblock : Wp (readBlock c d fault) f
          (fun _ g => InlineReader c data g ∧ g.off = f.pos ∧ g.pos = f.pos ∧ f.ReadFrom g)
          (fun _ _ => False) := by
        unfold readBlock
        simp only [wp_bind, wp_get, h.inl, if_true]
        split
        · simp only [wp_set]
          exact ⟨⟨rfl, h.size, h.size_lt, h.buffer, fun _ _ => rfl⟩, trivial, trivial,
            ⟨rfl, h.inl.symm, rfl, rfl, rfl, rfl, rfl, rfl, rfl⟩⟩
        · next hcond =>
          exact ⟨h, h.cursor (by simp_all) hpos, rfl, .refl f⟩
      refine hblock.bind ?_ fun _ _ => False.elim
      rintro ⟨⟩ g ⟨hg, hoff, hgpos, hfrom⟩
      have hgsize := hfrom.size
      unfold readPiece
      simp only [wp_bind, wp_get, hg.inl, if_true, wp_ofExcept_ok, wp_set, wp_pure,
        Memory.length_read]
      rw [hoff, hgpos, show min (k + 1) (c.blockSize - f.pos) = k + 1 by omega, Nat.sub_self,
        readLoop_zero, wp_pure, List.append_nil, hg.read_eq (by omega), List.length_take,
        List.length_drop, ← h.size, show min (k + 1) (f.size - f.pos) = k + 1 by omega]
      exact ⟨⟨rfl, hg.size, hg.size_lt, hg.buffer, fun _ _ => rfl⟩, rfl, rfl,
        hfrom.trans ⟨rfl, hg.inl.symm, rfl, rfl, rfl, rfl, rfl, rfl, rfl⟩⟩

end Bl616cl.Lfs
