import Bl616cl.Lfs.Write

/-!
# littlefs: seeking, truncating and syncing an open file

A seek within the block that was read last keeps the block. Right behind the end of a block that
is not the one of the position.
-/

namespace Bl616cl.Lfs

open Bl616cl.Lib

/-- The file has been read up to the end of a block, and goes on in the next. -/
def File.AtSeam (c : Config) (f : File) : Prop :=
  f.reading = true ∧ f.inl = false ∧ f.pos < f.size ∧ f.off = c.blockSize

instance (c : Config) (f : File) : Decidable (f.AtSeam c) :=
  inferInstanceAs (Decidable (_ ∧ _ ∧ _ ∧ _))

variable {c : Config} {others : Nat → Prop} {env : Env} {s s₀ t : State} {d e : Blocks}
  {sdata old cur data new : List UInt8} {f g : File} {pos npos size : Nat} {off : Int}
  {whence : Whence}

/-! ## Seeking -/

theorem npos_le (h : f.npos off whence = .ok npos) : npos ≤ fileMax := by
  have hrange : ∀ z : Int, (if z < 0 ∨ z > (fileMax : Int) then (.error .inval : Except Err Nat)
      else .ok z.toNat) = .ok npos → npos ≤ fileMax := by
    intro z hz
    split at hz
    · simp at hz
    · obtain rfl : z.toNat = npos := by simpa using hz
      omega
  cases whence <;> exact hrange _ h

theorem seekHit_wp (h : Inv c others sdata data s) (hidle : s.file.writing = false)
    (hseam : ¬s.file.AtSeam c) (hsame : (lfsCtzIndex c s.file.pos).1 = (lfsCtzIndex c npos).1)
    (hmax : npos ≤ fileMax) :
    Inv c others sdata data
      { s with file := { s.file with pos := npos, off := (lfsCtzIndex c npos).2 } } where
  saved := h.saved
  mode := by
    have hfile := fileMax_lt
    rcases h.mode with hinl | ⟨-, hr⟩ | ⟨hwriting, -⟩
    · refine .inl ⟨hinl.inl, hinl.head, hinl.size_le, ?_, fun _ hless => ?_, fun hb => ?_⟩
      · have hdata := hinl.data
        rw [File.rawsize, hidle, if_neg (by decide)] at hdata
        rw [File.rawsize, hidle, if_neg (by decide)]
        exact hdata
      · have hblock := inlineMax_lt c
        have hsize := hinl.size_le
        have hnpos : npos < s.file.size := hless
        have hfirst : blockStart c (0 + 1) = c.blockSize := by simp [blockStart, pointers]
        change (lfsCtzIndex c npos).2 = npos
        rw [lfsCtzIndex_eq (i := 0) (by omega) (by omega) (Nat.zero_le _) (by omega)]
        simp [pointers, blockStart]
      · exact absurd (hidle.symm.trans hb) (by decide)
    · refine .inr (.inl ⟨hidle, hr.inl, hr.size, hr.list, fun hreading => ?_⟩)
      rcases hr.cursor hreading with ⟨hat, -⟩ | ⟨-, -, -, hless, hend⟩ | hend
      · refine .inl ⟨?_, fun _ => rfl⟩
        change At c s.d s.file.head data (lfsCtzIndex c npos).1 s.file.block
        rwa [← hsame]
      · exact absurd ⟨hreading, hr.inl, hless, hend⟩ hseam
      · refine .inr (.inr ?_)
        change s.file.size ≤ blockStart c (lfsCtzIndex c npos).1
        rwa [← hsame]
    · exact absurd (hwriting.symm.trans hidle) (by decide)
  pos_le := hmax
  length_le := h.length_le
  errored := h.errored
  append _ hb := absurd (hidle.symm.trans hb) (by decide)
  clean := h.clean

/-- `lfs_file_rawseek` changes nothing but the position, unless the file is at a seam and the place
it goes to is found in the cache. -/
theorem lfsFileRawseek_wp (hhonest : env.Honest c others) (h : Inv c others sdata data s)
    (hseam : ∀ npos, s.file.npos off whence = .ok npos →
      ¬(s.file.AtSeam c ∧ seekHit c env s npos = true)) :
    Wp (lfsFileRawseek c env off whence) s
      (fun n t => s.file.npos off whence = .ok n ∧ After c others sdata data n s t)
      (fun e t => (s.file.npos off whence = .error e ∧ t = s) ∨
        ((∃ n, s.file.npos off whence = .ok n) ∧ Failed c others env s sdata t)) := by
  unfold lfsFileRawseek
  simp only [wp_bind, wp_get]
  rcases hn : s.file.npos off whence with e | npos
  · exact .inl ⟨rfl, rfl⟩
  have hmax := npos_le hn
  simp only [wp_ofExcept_ok]
  by_cases hstay : s.file.pos = npos
  · rw [if_pos hstay]
    exact ⟨rfl, hstay ▸ h.after⟩
  rw [if_neg hstay]
  by_cases hhit : s.file.writing = false ∧ seekHit c env s npos = true
  · rw [if_pos hhit]
    have hno : ¬s.file.AtSeam c := fun hs => hseam npos hn ⟨hs, hhit.2⟩
    have hsame : (lfsCtzIndex c s.file.pos).1 = (lfsCtzIndex c npos).1 := by
      have hcond := hhit.2
      rw [seekHit, decide_eq_true_eq] at hcond
      exact hcond.1
    exact ⟨rfl, seekHit_wp h hhit.1 hno hsame hmax,
      ⟨rfl, h.saved, fun _ _ => rfl, List.suffix_refl _⟩, rfl, rfl, rfl⟩
  · rw [if_neg hhit]
    refine (lfsFileFlush_wp hhonest h).bind ?_ fun e t ht => .inr ⟨⟨npos, rfl⟩, ht⟩
    rintro ⟨⟩ t ⟨hinv, hsafe, hflushed⟩
    exact ⟨rfl, hinv.moved hflushed.reading hflushed.writing hmax,
      ⟨hsafe.same, hsafe.saved, hsafe.rest, hsafe.past⟩, rfl, hflushed.append, hflushed.removed⟩

/-! ## Truncating -/

theorem Inv.idle_of_zero (h : Inv c others sdata data s) (hpos : s.file.pos = 0) :
    s.file.writing = false := by
  by_contra hne
  have hwriting : s.file.writing = true := by simpa using hne
  rcases h.mode with hinl | ⟨hidle, -⟩ | ⟨-, -, old, cur, hw, -, hcur, -⟩
  · have hlow := (hinl.busy hwriting).2.1
    omega
  · exact hne hidle
  · have hlen := List.length_pos_iff.2 hcur
    have hp := hw.pos
    omega

theorem npos_set {n : Nat} (hn : n ≤ fileMax) : f.npos (n : Int) .set = .ok n := by
  simpa [File.npos] using hn

theorem npos_zero : f.npos 0 .set = .ok 0 := npos_set (Nat.zero_le _)

/-- The rest of the file, too, comes to lie in the directory. -/
theorem truncateInline_wp (hhonest : env.Honest c others) (h : Inv c others sdata data s)
    (hseam : ¬s.file.AtSeam c) (hsize : size ≤ inlineMax c) (hless : size < data.length) :
    Wp (truncateInline c env size) s
      (fun _ t => After c others sdata (data.take size) size s t ∧ t.file.inl = true)
      (fun _ t => Failed c others env s sdata t) := by
  unfold truncateInline
  refine (lfsFileRawseek_wp hhonest h fun _ _ hs => hseam hs.1).bind ?_ ?_
  · rintro n t ⟨hn, ha⟩
    obtain rfl : 0 = n := by simpa [npos_zero] using hn
    have hidle := ha.inv.idle_of_zero ha.pos
    refine (readIdle_wp ha.inv hidle size).bind ?_ fun e u hu => ha.safe.failed hu
    rintro out u ⟨hout, hinv, hsafe, hpos, hfrom⟩
    rw [ha.pos, List.drop_zero] at hout
    have hlen : out.length = size := by
      rw [hout, List.length_take]
      omega
    have huidle : u.file.writing = false := hfrom.writing.trans hidle
    rw [ha.pos, hlen, Nat.zero_add] at hpos
    rw [wp_setFile, ← hout]
    have hread : Memory.read (Memory.write u.file.buffer 0 out) 0 size = out := by
      rw [← hlen]
      exact Memory.read_write
    have hlength := hinv.length_le
    refine ⟨⟨⟨hinv.saved, .inl ⟨rfl, rfl, hsize, ?_, fun _ hl => ?_, fun hb => ?_⟩, hinv.pos_le, ?_,
      hinv.errored, fun _ hb => ?_, fun hd => absurd hd.symm Bool.false_ne_true⟩,
      ⟨hsafe.same.trans ha.safe.same, hinv.saved, fun b hb => ?_, ha.safe.past.trans hsafe.past⟩,
      hpos, hfrom.append.trans ha.append,
      hfrom.removed.trans ha.removed⟩, rfl⟩
    · rw [File.rawsize, huidle, if_neg (by decide)]
      exact hread
    · exact absurd hpos (Nat.ne_of_lt hl)
    · exact absurd (huidle.symm.trans hb) (by decide)
    · omega
    · exact absurd (huidle.symm.trans hb) (by decide)
    · rw [← ha.safe.rest b hb, ← hsafe.rest b hb]
  · rintro e t (⟨hn, -⟩ | ⟨-, hsafe⟩)
    · rw [npos_zero] at hn
      simp at hn
    · exact hsafe

/-- The list up to the block of the last byte left. -/
theorem truncateList_wp (hhonest : env.Honest c others) (h : Inv c others sdata data s)
    (hsize : inlineMax c < size) (hless : size < data.length) :
    Wp (truncateList c env size) s
      (fun _ t => After c others sdata (data.take size) size s t ∧ ¬t.file.AtSeam c)
      (fun _ t => Failed c others env s sdata t) := by
  unfold truncateList
  refine (lfsFileFlush_wp hhonest h).bind ?_ fun e t ht => ht
  rintro ⟨⟩ t ⟨hinv, hsafe, hflushed⟩
  have hidle := hflushed.writing
  have htsize := hinv.idle_size hidle
  have hmax := hinv.length_le
  have hfile := fileMax_lt
  have hr : Reader c t.d data t.file := by
    rcases hinv.mode with hinl | ⟨-, hr⟩ | ⟨hwriting, -⟩
    · have hle := hinl.size_le
      omega
    · exact hr
    · exact absurd (hwriting.symm.trans hidle) (by decide)
  have hstored : Stored c t.d t.file.head data := by
    rcases hr.list with rfl | hs
    · exact absurd hless (Nat.not_lt_zero _)
    · exact hs
  obtain ⟨block, hfind, hat⟩ := hstored.find (show size - 1 < data.length by omega)
  simp only [wp_bind, wp_get, wp_set]
  rw [htsize, hfind]
  simp only [wp_faulty, wp_setFile]
  refine ⟨fun _ => ?_, fun e he => ?_⟩
  case refine_2 =>
    have hfails : env.Fails c others t .find := he.trans_ne (Option.some_ne_none e)
    exact ⟨⟨hsafe.same, hsafe.saved, hsafe.rest, hsafe.past.trans (List.suffix_cons _ _)⟩,
      .inl (.of_asked hfails hsafe.past rfl)⟩
  have hlen : size - 1 + 1 = size := by omega
  have htake := hat.take (show size - 1 < data.length by omega) rfl
  rw [hlen] at htake
  have hlength : (data.take size).length = size := by
    rw [List.length_take]
    omega
  refine ⟨⟨⟨hinv.saved, .inr (.inl ⟨hidle, hr.inl, hlength.symm, .inr htake.stored, fun _ => ?_⟩),
    ?_, ?_, hinv.errored, fun _ hb => ?_, fun hd => absurd hd.symm Bool.false_ne_true⟩,
    ⟨hsafe.same, hsafe.saved, hsafe.rest, hsafe.past.trans (List.suffix_cons _ _)⟩, rfl,
    hflushed.append, hflushed.removed⟩, ?_⟩
  · -- the position is behind the last byte, in its block or at the start of the next
    obtain ⟨-, hlo, hhi, -⟩ := lfsCtzIndex_spec c (show size - 1 < 2 ^ 32 by omega)
    obtain ⟨-, hlo', hhi', -⟩ := lfsCtzIndex_spec c (show size < 2 ^ 32 by omega)
    rcases Nat.lt_or_ge size (blockStart c ((lfsCtzIndex c (size - 1)).1 + 1)) with hin | hout
    · have hsame : (lfsCtzIndex c size).1 = (lfsCtzIndex c (size - 1)).1 :=
        Nat.le_antisymm (index_le_of_lt hlo' hin) (index_le_of_lt hlo (by omega))
      refine .inl ⟨?_, fun hlt => absurd hlt (Nat.lt_irrefl _)⟩
      change At c t.d block (data.take size) (lfsCtzIndex c size).1 block
      rwa [hsame]
    · have hnext := index_le_of_lt hout hhi'
      have hmono := blockStart_mono (c := c) hnext
      refine .inr (.inr ?_)
      change size ≤ blockStart c (lfsCtzIndex c size).1
      omega
  · change size ≤ fileMax
    omega
  · omega
  · exact absurd (hidle.symm.trans hb) (by decide)
  · rintro ⟨-, -, hlt, -⟩
    exact absurd hlt (Nat.lt_irrefl _)

theorem growLoop_wp (hhonest : env.Honest c others) (h : Inv c others sdata data s)
    (hpos : s.file.pos = data.length) (hsize : size ≤ fileMax) (fuel : Nat)
    (hfuel : size - data.length ≤ fuel) :
    Wp (growLoop c env size fuel) s
      (fun _ t => After c others sdata (padTo data size) (padTo data size).length s t)
      (fun _ t => Failed c others env s sdata t) := by
  induction fuel generalizing s data with
  | zero =>
    rw [growLoop, wp_pure, padTo_of_le (by omega), ← hpos]
    exact h.after
  | succ fuel ih =>
    rw [growLoop]
    simp only [wp_bind, wp_getFile]
    by_cases hless : s.file.pos < size
    · rw [if_pos hless]
      have hstay : s.file.pos = writePos s.file.append data s.file.pos :=
        (if_neg fun hc => by omega).symm
      have hone : [(0 : UInt8)].length < 2 ^ 31 := by decide
      refine (lfsFileRawwrite_wp hhonest h hone hstay).bind ?_ ?_
      · rintro n t ⟨-, -, ha⟩
        rw [hpos, padTo_of_le (Nat.le_refl _), overlay_end] at ha
        refine (ih ha.inv ?_ ?_).mono ?_ fun e u hu => ha.safe.failed hu
        · rw [ha.pos, List.length_append]
        · rw [List.length_append, List.length_singleton]
          omega
        · rintro ⟨⟩ u hu
          rw [padTo_concat (by omega)] at hu
          exact ha.trans hu
      · rintro e t (⟨hbig, -⟩ | ⟨-, hsafe⟩)
        · rw [List.length_singleton] at hbig
          omega
        · exact hsafe
    · rw [if_neg hless, wp_pure, padTo_of_le (by omega), ← hpos]
      exact h.after

theorem Inv.not_atSeam (h : Inv c others sdata data s) (hpos : data.length ≤ s.file.pos) :
    ¬s.file.AtSeam c := by
  rintro ⟨-, -, hless, -⟩
  have hraw := h.rawsize
  rw [File.rawsize] at hraw
  split at hraw <;> omega

theorem npos_end (hinv : Inv c others sdata data s) : s.file.npos 0 .end = .ok data.length := by
  have hlen := hinv.length_le
  simpa [File.npos, hinv.rawsize] using hlen

theorem truncateGrow_wp (hhonest : env.Honest c others) (h : Inv c others sdata data s)
    (hseam : ¬s.file.AtSeam c) (hsize : size ≤ fileMax) :
    Wp (truncateGrow c env size) s
      (fun _ t => After c others sdata (padTo data size) (padTo data size).length s t)
      (fun _ t => Failed c others env s sdata t) := by
  unfold truncateGrow
  refine (lfsFileRawseek_wp hhonest h fun _ _ hs => hseam hs.1).bind ?_ ?_
  · rintro n t ⟨hn, ha⟩
    obtain rfl : data.length = n := by simpa [npos_end h] using hn
    refine (growLoop_wp hhonest ha.inv ha.pos hsize _ (Nat.le_refl _)).mono ?_ ?_
    · exact fun _ u hu => ha.trans hu
    · exact fun e u hu => ha.safe.failed hu
  · rintro e t (⟨hn, -⟩ | ⟨-, hsafe⟩)
    · rw [npos_end h] at hn
      simp at hn
    · exact hsafe

/-- The data cut or filled up to a size. -/
def resize (data : List UInt8) (size : Nat) : List UInt8 := (padTo data size).take size

theorem resize_of_lt (h : size < data.length) : resize data size = data.take size := by
  rw [resize, padTo_of_le (Nat.le_of_lt h)]

theorem resize_of_ge (h : data.length ≤ size) : resize data size = padTo data size := by
  rw [resize, List.take_of_length_le]
  rw [length_padTo]
  omega

theorem truncateSize_wp (hhonest : env.Honest c others) (h : Inv c others sdata data s)
    (hseam : ¬s.file.AtSeam c) (hsize : size ≤ fileMax) :
    Wp (truncateSize c env size data.length) s
      (fun _ t => (∃ pos, After c others sdata (resize data size) pos s t) ∧
        (t.file.AtSeam c → t = s))
      (fun _ t => Failed c others env s sdata t) := by
  unfold truncateSize
  split
  · next hless =>
    rw [resize_of_lt hless]
    split
    · next hsmall =>
      refine (truncateInline_wp hhonest h hseam hsmall hless).mono ?_ fun e t ht => ht
      rintro ⟨⟩ t ⟨ha, hinl⟩
      exact ⟨⟨_, ha⟩, fun hs => absurd (hinl.symm.trans hs.2.1) (by decide)⟩
    · next hlarge =>
      refine (truncateList_wp hhonest h (by omega) hless).mono ?_ fun e t ht => ht
      rintro ⟨⟩ t ⟨ha, hno⟩
      exact ⟨⟨_, ha⟩, fun hs => absurd hs hno⟩
  · next hmore =>
    rw [resize_of_ge (by omega)]
    split
    · refine (truncateGrow_wp hhonest h hseam hsize).mono ?_ fun e t ht => ht
      rintro ⟨⟩ t ha
      exact ⟨⟨_, ha⟩, fun hs => absurd hs (ha.inv.not_atSeam (Nat.le_of_eq ha.pos.symm))⟩
    · next hsame =>
      rw [padTo_of_le (by omega)]
      exact ⟨⟨_, h.after⟩, fun _ => rfl⟩

/-- `lfs_file_rawtruncate` cuts the file or fills it up with zeros, and keeps the position. -/
theorem lfsFileRawtruncate_wp (hhonest : env.Honest c others) (h : Inv c others sdata data s)
    (hseam : ¬s.file.AtSeam c) :
    Wp (lfsFileRawtruncate c env size) s
      (fun _ t => size ≤ fileMax ∧ After c others sdata (resize data size) s.file.pos s t)
      (fun e t => (size > fileMax ∧ e = .inval ∧ t = s) ∨
        (size ≤ fileMax ∧ Failed c others env s sdata t)) := by
  unfold lfsFileRawtruncate
  by_cases hbig : size > fileMax
  · rw [if_pos hbig]
    exact .inl ⟨hbig, rfl, rfl⟩
  have hsize : size ≤ fileMax := Nat.not_lt.1 hbig
  rw [if_neg hbig]
  simp only [wp_bind, wp_getFile]
  rw [h.rawsize]
  refine (truncateSize_wp hhonest h hseam hsize).mono ?_ fun e t ht => .inr ⟨hsize, ht⟩
  rintro ⟨⟩ t ⟨⟨pos, ha⟩, hs⟩
  have hno : ¬t.file.AtSeam c := fun hseam' => hseam (hs hseam' ▸ hseam')
  have hn := npos_set (f := t.file) h.pos_le
  refine (lfsFileRawseek_wp hhonest ha.inv fun _ _ hc => hno hc.1).mono ?_ ?_
  · rintro n u ⟨hn', hu⟩
    rw [hn] at hn'
    obtain rfl : s.file.pos = n := by simpa using hn'
    exact ⟨hsize, ha.trans hu⟩
  · rintro e u (⟨hn', -⟩ | ⟨-, hsafe⟩)
    · rw [hn] at hn'
      simp at hn'
    · exact .inr ⟨hsize, ha.safe.failed hsafe⟩

/-! ## Syncing -/

theorem Inv.save_holds (h : Inv c others sdata data s) (hidle : s.file.writing = false) :
    s.file.save.Holds c s.d data := by
  have hsize := h.idle_size hidle
  unfold File.save
  rcases h.mode with hinl | ⟨-, hr⟩ | ⟨hwriting, -⟩
  · rw [if_pos hinl.inl]
    refine ⟨?_, hsize ▸ hinl.size_le⟩
    rw [hsize, ← h.rawsize, hinl.data]
  · rw [if_neg (by rw [hr.inl]; decide)]
    exact ⟨hsize, hr.list⟩
  · exact absurd (hwriting.symm.trans hidle) (by decide)

theorem Inv.asked (h : Inv c others sdata data s) (q : Ask) :
    Inv c others sdata data (s.asked q) where
  saved := h.saved
  mode := by
    refine h.mode.imp_right (.imp_right ?_)
    rintro ⟨hwriting, hreading, old, cur, hw, hrest⟩
    exact ⟨hwriting, hreading, old, cur,
      { hw with rest := fun _ _ => rfl, kept := fun _ _ => rfl, past := List.suffix_refl _ },
      hrest⟩
  pos_le := h.pos_le
  length_le := h.length_le
  errored := h.errored
  append := h.append
  clean := h.clean

/-- What has been committed is not dirty. -/
theorem Inv.committed (h : Inv c others sdata data s) (hidle : s.file.writing = false) :
    Inv c others data data
      { s with saved := s.file.save, file := { s.file with dirty := false } } where
  saved := h.save_holds hidle
  mode := by
    rcases h.mode with hinl | ⟨-, hr⟩ | ⟨hwriting, -⟩
    · exact .inl ⟨hinl.inl, hinl.head, hinl.size_le, hinl.data, hinl.cursor, hinl.busy⟩
    · exact .inr (.inl ⟨hidle, hr.inl, hr.size, hr.list, hr.cursor⟩)
    · exact absurd (hwriting.symm.trans hidle) (by decide)
  pos_le := h.pos_le
  length_le := h.length_le
  errored := h.errored
  append := h.append
  clean _ _ := rfl

/-- `lfs_file_rawsync` commits what the file holds, unless the file has been removed. -/
theorem lfsFileRawsync_wp (hhonest : env.Honest c others) (h : Inv c others sdata data s) :
    Wp (lfsFileRawsync c env) s
      (fun _ t => Inv c others (if s.file.removed then sdata else data) data t ∧
        (∀ b, others b → t.d b = s.d b) ∧ t.file.pos = s.file.pos ∧
        t.file.append = s.file.append ∧ t.file.removed = s.file.removed)
      (fun _ t => Failed c others env s sdata t) := by
  unfold lfsFileRawsync
  simp only [wp_bind, wp_getFile]
  rw [if_neg (by rw [h.errored]; decide), wp_orErred]
  refine wp_bind.2 ((lfsFileFlush_wp hhonest h).mono ?_ fun e t ht => ht.errored)
  rintro ⟨⟩ t ⟨hinv, hsafe, hflushed⟩
  have hidle := hflushed.writing
  unfold syncCommit
  simp only [wp_bind, wp_get]
  by_cases hcond : t.file.dirty = true ∧ t.file.removed = false
  · rw [if_pos hcond]
    simp only [wp_bind, wp_set, wp_faulty]
    refine ⟨fun _ => ?_, fun e he => ?_⟩
    · have hremoved : s.file.removed = false := hflushed.removed ▸ hcond.2
      rw [hremoved, if_neg (by decide)]
      exact ⟨(hinv.asked .commit).committed hidle, hsafe.rest, hflushed.pos, hflushed.append,
        hcond.2⟩
    · have hfails : env.Fails c others t .commit := he.trans_ne (Option.some_ne_none e)
      exact ⟨⟨hsafe.same, hsafe.saved, hsafe.rest, hsafe.past.trans (List.suffix_cons _ _)⟩,
        .inl (.of_asked hfails hsafe.past rfl)⟩
  · rw [if_neg hcond]
    refine ⟨?_, hsafe.rest, hflushed.pos, hflushed.append, hflushed.removed⟩
    split
    · exact hinv
    · next hremoved =>
      have hclean : t.file.dirty = false := by
        have hstill := hflushed.removed
        simp_all
      rwa [← hinv.clean hclean hidle] at hinv

end Bl616cl.Lfs
