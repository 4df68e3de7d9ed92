import Bl616cl.Lfs.Writer

/-!
# littlefs: what an open file holds

`Inv` is what holds of an open file between operations: its data, wherever it lies, and the data
that was committed. `lfs_file_flush` keeps both.
-/

namespace Bl616cl.Lfs

open Bl616cl.Lib

/-- The file is in its directory. -/
structure InlineFile (c : Config) (data : List UInt8) (f : File) : Prop where
  inl : f.inl = true
  head : f.head = blockInline
  size_le : f.size ≤ inlineMax c
  data : Memory.read f.buffer 0 f.rawsize = data
  cursor : f.reading = true → f.pos < f.size → f.off = f.pos
  busy : f.writing = true →
    f.reading = false ∧ 0 < f.pos ∧ f.pos ≤ inlineMax c ∧ f.block = blockInline ∧ f.off = f.pos

/-- What has been written lies in one list of blocks, and what follows it in another. -/
def Writing (c : Config) (others : Nat → Prop) (sdata data : List UInt8) (s : State) : Prop :=
  s.file.writing = true ∧ s.file.reading = false ∧ ∃ old cur,
    Writer c others s sdata old cur s ∧ (s.file.head = blockInline → s.file.size ≤ s.file.pos) ∧
      cur ≠ [] ∧ data = cur ++ old.drop cur.length

/-- The file holds `data`, and `sdata` is committed. -/
structure Inv (c : Config) (others : Nat → Prop) (sdata data : List UInt8) (s : State) : Prop where
  saved : s.saved.Holds c s.d sdata
  mode : InlineFile c data s.file ∨ (s.file.writing = false ∧ Reader c s.d data s.file) ∨
    Writing c others sdata data s
  pos_le : s.file.pos ≤ fileMax
  length_le : data.length ≤ fileMax
  errored : s.file.errored = false
  append : s.file.append = true → s.file.writing = true → s.file.size ≤ s.file.pos
  clean : s.file.dirty = false → s.file.writing = false → data = sdata

variable {c : Config} {others : Nat → Prop} {env : Env} {s s₀ t : State} {d e : Blocks}
  {sdata old cur data : List UInt8} {f orig : File}

theorem inlineMax_lt (c : Config) : inlineMax c < c.blockSize := by
  have hsize := c.blockSize_ge
  have hmeta := c.metadataMax_le
  have hle : inlineMax c ≤ (if c.metadataMax ≠ 0 then c.metadataMax else c.blockSize) / 8 :=
    Nat.le_trans (Nat.min_le_right _ _) (Nat.min_le_right _ _)
  split at hle <;> omega

theorem fileMax_lt : fileMax < 2 ^ 31 := by decide

/-! ## Copying -/

theorem copyLoop_wp (hhonest : env.Honest c others) (h : Writer c others s₀ sdata old cur s)
    (hwriting : s.file.writing = true) (horig : Reader c s.d old orig)
    (hpos : orig.pos = cur.length) (hhead : orig.head = s.file.head)
    (hsize : old.length < 2 ^ 31) (fuel : Nat) (hfuel : old.length - cur.length ≤ fuel) :
    Wp (copyLoop c env fuel orig) s
      (fun _ t => Writer c others s₀ sdata old (cur ++ old.drop cur.length) t ∧
        s.file.Same t.file ∧ t.file.writing = true)
      (fun _ t => Failed c others env s₀ sdata t) := by
  have hself : s.file.Same s.file := ⟨rfl, rfl, rfl, rfl, rfl, rfl, rfl, rfl⟩
  induction fuel generalizing s cur orig with
  | zero =>
    have hnil : old.drop cur.length = [] := List.drop_eq_nil_of_le (by omega)
    rw [hnil, List.append_nil]
    exact ⟨h, hself, hwriting⟩
  | succ fuel ih =>
    rw [copyLoop]
    simp only [wp_bind, wp_get]
    split
    · next hless =>
      rw [h.pos, h.size] at hless
      have hread : Wp (lfsFileFlushedread c s.d (env.read s) 1) orig _ _ :=
        horig.lfsFileFlushedread_wp 1
      rcases hr : lfsFileFlushedread c s.d (env.read s) 1 orig with ⟨out, g⟩ | ⟨e, g⟩ <;>
        rw [Wp, hr] at hread
      · obtain ⟨hg, hout, hgpos, hfrom⟩ := hread
        rw [hpos] at hout
        have hlen : out.length = 1 := by
          rw [hout, List.length_take, List.length_drop]
          omega
        have hcur : (cur ++ out).length = cur.length + 1 := by rw [List.length_append, hlen]
        simp only [wp_bind, wp_set]
        refine (lfsFileFlushedwrite_wp hhonest (h.asked (.read none)) (by omega)).mono ?_
          fun e t ht => ht
        rintro n t ⟨-, hwriter, hsame, hwriting'⟩
        have hagree : ∀ b, Uses c s.d g.head old.length b → t.d b = s.d b := fun b hb =>
          h.toBase.agree hwriter.toBase hsame.head (hhead ▸ hfrom.head ▸ hb)
        refine (ih hwriter (hwriting' (.inr hwriting)) (hg.congr hagree) (by omega)
          ((hfrom.head.trans hhead).trans hsame.head.symm) (by omega)
          ⟨rfl, rfl, rfl, rfl, rfl, rfl, rfl, rfl⟩).mono ?_ fun e t ht => ht
        rintro ⟨⟩ t' ⟨hwriter', hsame', hdone⟩
        refine ⟨?_, hsame.trans hsame', hdone⟩
        have hdata : cur ++ out ++ old.drop (cur ++ out).length = cur ++ old.drop cur.length := by
          rw [hcur, List.append_assoc, hout, ← List.drop_drop, List.take_append_drop]
        rwa [hdata] at hwriter'
      · have hfails : env.Fails c others s (.read (some g)) :=
          ⟨g, rfl, hread.trans_ne (Option.some_ne_none e)⟩
        exact ⟨(h.asked (.read (some g))).toSafe, .inl (.of_asked hfails h.past rfl)⟩
    · next hall =>
      rw [h.pos, h.size] at hall
      have hnil : old.drop cur.length = [] := List.drop_eq_nil_of_le (by omega)
      rw [hnil, List.append_nil]
      exact ⟨h, hself, hwriting⟩

theorem flushLoop_wp (hhonest : env.Honest c others) (h : Writer c others s₀ sdata old cur s)
    (hwriting : s.file.writing = true) (fuel : Nat)
    (hfuel : 0 < fuel ∨ Blamed c others env s₀ s) :
    Wp (flushLoop env fuel) s
      (fun _ t => Writer c others s₀ sdata old cur t ∧ s.file.Same t.file ∧
        t.file.writing = true)
      (fun _ t => Failed c others env s₀ sdata t) := by
  induction fuel generalizing s with
  | zero => exact ⟨h.toSafe, .inl (hfuel.resolve_left (Nat.lt_irrefl 0))⟩
  | succ fuel ih =>
    have hcause : env.flush s ≠ none → Blamed c others env s₀ (s.asked .flush) :=
      fun hne => .of_asked (q := .flush) hne h.past rfl
    have hasked := h.asked .flush
    rw [flushLoop]
    simp only [wp_bind, wp_get, wp_set]
    split
    · exact ⟨hasked, ⟨rfl, rfl, rfl, rfl, rfl, rfl, rfl, rfl⟩, hwriting⟩
    · next hflush =>
      have hblamed := hcause (by rw [hflush]; simp)
      obtain ⟨htail, hwritten, -⟩ := hasked.busy hwriting
      refine wp_bind.2 ((relocate_tail hhonest hasked.toBase h.inl hwriting htail
        h.pos).mono ?_ fun e t ht => ht)
      rintro ⟨⟩ t ⟨hbase, htail', hwritten', hblock', hmoved, hlater⟩
      have hbusy : t.file.writing = true := hmoved.writing.trans hwriting
      refine (ih ⟨hbase, hmoved.inl.trans h.inl, hmoved.pos.trans h.pos,
        fun hidle => absurd (hbusy.symm.trans hidle) (by decide),
        fun _ => ⟨htail', fun hcur => hwritten' (hwritten hcur), hblock'⟩⟩ hbusy
        (.inr (hblamed.later hlater))).mono ?_ fun e t ht => ht
      rintro ⟨⟩ t' ⟨hwriter, hsame, hdone⟩
      have hfirst : s.file.Same t.file := hmoved.toSame
      exact ⟨hwriter, hfirst.trans hsame, hdone⟩
    · next e hne hflush => exact ⟨hasked.toSafe, .inl (hcause (by rw [hflush]; simp))⟩

/-! ## `lfs_file_flush` -/

/-- What was written is where the file is now. -/
structure Flushed (f g : File) : Prop where
  reading : g.reading = false
  writing : g.writing = false
  pos : g.pos = f.pos
  inl : g.inl = f.inl
  append : g.append = f.append
  removed : g.removed = f.removed

theorem flushWriting_wp (hhonest : env.Honest c others) (h : Inv c others sdata data s)
    (hwriting : s.file.writing = true) (hreading : s.file.reading = false) :
    Wp (flushWriting c env) s
      (fun _ t => Inv c others sdata data t ∧ Safe c others s sdata t ∧ Flushed s.file t.file)
      (fun _ t => Failed c others env s sdata t) := by
  unfold flushWriting
  rcases h.mode with hinl | ⟨hidle, -⟩ | ⟨-, -, old, cur, hw, hlate, hcur, hdata⟩
  · -- inline: the buffer is the file
    obtain ⟨-, hpos, hmax, hblock, hoff⟩ := hinl.busy hwriting
    simp only [wp_bind, wp_getFile]
    rw [if_pos hinl.inl]
    refine ⟨⟨h.saved, .inl ⟨hinl.inl, hblock, ?_, ?_, ?_, ?_⟩, h.pos_le, h.length_le, h.errored,
      ?_, ?_⟩, ⟨rfl, h.saved, fun _ _ => rfl, List.suffix_refl _⟩, hreading, rfl, rfl, rfl, rfl,
      rfl⟩
    · exact Nat.max_le.2 ⟨hmax, hinl.size_le⟩
    · have hbuf := hinl.data
      rw [File.rawsize, if_pos hwriting] at hbuf
      exact hbuf
    · intro hr
      exact absurd (hreading.symm.trans hr) (by decide)
    · exact fun hw => absurd hw Bool.false_ne_true
    · exact fun _ hw => absurd hw Bool.false_ne_true
    · exact fun hd => absurd hd.symm Bool.false_ne_true
  · exact absurd (hwriting.symm.trans hidle) (by decide)
  · have hlen : data.length = cur.length + (old.length - cur.length) := by
      rw [hdata, List.length_append, List.length_drop]
    have hmax := h.length_le
    have hbound := fileMax_lt
    have hlist : s.file.inl ≠ true := fun hinl => absurd (hw.inl.symm.trans hinl) (by decide)
    simp only [wp_bind, wp_getFile]
    rw [if_neg hlist]
    have hcopy : Wp (copyLoop c env (s.file.size - s.file.pos) s.file.orig) s
        (fun _ t => Writer c others s sdata old data t ∧ s.file.Same t.file ∧
          t.file.writing = true)
        (fun _ t => Failed c others env s sdata t) := by
      rw [hdata]
      rcases Nat.lt_or_ge s.file.pos s.file.size with hless | hall
      · have hstored : old = [] ∨ Stored c s.d s.file.head old := by
          rcases hw.list with hinline | hold
          · exact absurd (hlate hinline) (by omega)
          · exact hold
        have hsize := hw.size
        have hpos := hw.pos
        have horig : Reader c s.d old s.file.orig :=
          ⟨rfl, hw.size, hstored, fun hr => absurd hr Bool.false_ne_true⟩
        exact copyLoop_wp hhonest hw hwriting horig hpos rfl (by omega) _ (by omega)
      · have hpos := hw.pos
        have hsize := hw.size
        have hnil : old.drop cur.length = [] := List.drop_eq_nil_of_le (by omega)
        rw [Nat.sub_eq_zero_of_le hall, hnil, List.append_nil]
        exact ⟨hw, ⟨rfl, rfl, rfl, rfl, rfl, rfl, rfl, rfl⟩, hwriting⟩
    refine wp_bind.2 (hcopy.mono ?_ fun e t ht => ht)
    rintro ⟨⟩ t ⟨hw', hsame, hbusy⟩
    have hcount : 0 < c.blockCount :=
      Nat.lt_of_le_of_lt (Nat.zero_le _) (hw'.busy hbusy).1.inside
    refine (flushLoop_wp hhonest hw' hbusy c.blockCount (.inl hcount)).bind ?_ fun e t ht => ht
    rintro ⟨⟩ t' ⟨hw'', hsame', hbusy'⟩
    have hall := hsame.trans hsame'
    have hne : data ≠ [] := by
      rw [hdata]
      simp [hcur]
    have hwritten := (hw''.busy hbusy').2.1 hne
    have hinl' := hw''.inl
    simp only [wp_setFile]
    refine ⟨⟨hw''.saved, .inr (.inl ⟨rfl, hinl', hw''.pos, .inr hwritten.stored, ?_⟩), h.pos_le,
      h.length_le, hall.errored.trans h.errored, ?_, ?_⟩,
      ⟨hw''.same, hw''.saved, hw''.rest, hw''.past⟩, hall.reading.trans hreading, rfl, rfl,
      hall.inl, hall.append, hall.removed⟩
    · intro hr
      exact absurd ((hall.reading.trans hreading).symm.trans hr) (by decide)
    · exact fun _ hb => absurd hb Bool.false_ne_true
    · exact fun hd => absurd hd.symm Bool.false_ne_true

/-- `lfs_file_flush` keeps what the file holds. -/
theorem lfsFileFlush_wp (hhonest : env.Honest c others) (h : Inv c others sdata data s) :
    Wp (lfsFileFlush c env) s
      (fun _ t => Inv c others sdata data t ∧ Safe c others s sdata t ∧ Flushed s.file t.file)
      (fun _ t => Failed c others env s sdata t) := by
  unfold lfsFileFlush
  simp only [wp_bind, wp_getFile, wp_setFile]
  have hinv : Inv c others sdata data { s with file := { s.file with reading := false } } := by
    refine ⟨h.saved, ?_, h.pos_le, h.length_le, h.errored, h.append, h.clean⟩
    rcases h.mode with hinl | ⟨hidle, hr⟩ | ⟨hwriting, -, old, cur, hw, hrest⟩
    · exact .inl ⟨hinl.inl, hinl.head, hinl.size_le, hinl.data, fun hr => absurd hr (by simp),
        fun hb => ⟨rfl, (hinl.busy hb).2⟩⟩
    · exact .inr (.inl ⟨hidle, hr.inl, hr.size, hr.list, fun hr => absurd hr (by simp)⟩)
    · exact .inr (.inr ⟨hwriting, rfl, old, cur,
        { hw with kept := fun _ _ => rfl, rest := fun _ _ => rfl, past := List.suffix_refl _ },
        hrest⟩)
  by_cases hwriting : s.file.writing = true
  · rw [if_pos hwriting]
    refine (flushWriting_wp hhonest hinv hwriting rfl).mono ?_ ?_
    · rintro ⟨⟩ t ⟨hinv', hsafe, hflushed⟩
      exact ⟨hinv', ⟨hsafe.same, hsafe.saved, hsafe.rest, hsafe.past⟩, hflushed.reading,
        hflushed.writing, hflushed.pos, hflushed.inl, hflushed.append, hflushed.removed⟩
    · exact fun e t hf => ⟨⟨hf.same, hf.saved, hf.rest, hf.past⟩, hf.cause⟩
  · rw [if_neg hwriting]
    exact ⟨hinv, ⟨rfl, h.saved, fun _ _ => rfl, List.suffix_refl _⟩, rfl,
      Bool.eq_false_of_not_eq_true hwriting, rfl, rfl, rfl, rfl⟩

end Bl616cl.Lfs
