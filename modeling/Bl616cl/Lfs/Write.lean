import Bl616cl.Lfs.Flush

/-!
# littlefs: reading and writing an open file

Wherever its data lies, a read delivers what follows the position, and a write replaces it.
-/

namespace Bl616cl.Lfs

open Bl616cl.Lib

/-- `new` in place of what is there from `pos` on. -/
def overlay (data : List UInt8) (pos : Nat) (new : List UInt8) : List UInt8 :=
  data.take pos ++ new ++ data.drop (pos + new.length)

variable {c : Config} {others : Nat → Prop} {env : Env} {s s₀ t : State} {d e : Blocks}
  {sdata old cur data new : List UInt8} {f g : File} {pos : Nat}

@[simp] theorem overlay_nil (data : List UInt8) (pos : Nat) : overlay data pos [] = data := by
  simp [overlay]

theorem length_overlay (hpos : pos ≤ data.length) :
    (overlay data pos new).length = max (pos + new.length) data.length := by
  simp only [overlay, List.length_append, List.length_take, List.length_drop]
  omega

theorem overlay_append (hcur : cur.length = pos) :
    overlay (cur ++ old.drop pos) pos new = (cur ++ new) ++ old.drop (cur ++ new).length := by
  subst hcur
  rw [overlay, List.take_left, ← List.drop_drop, List.drop_left, List.drop_drop,
    List.length_append]

theorem overlay_take (hpos : pos ≤ data.length) :
    overlay data pos new = (data.take pos ++ new) ++ data.drop (data.take pos ++ new).length := by
  rw [overlay, List.length_append, List.length_take, Nat.min_eq_left hpos]

theorem read_write_overlay (m : Nat → UInt8) (new : List UInt8) {n : Nat} (hpos : pos ≤ n) :
    Memory.read (Memory.write m pos new) 0 (max (pos + new.length) n) =
      overlay (Memory.read m 0 n) pos new := by
  have hsplit := Memory.read_add (m := Memory.write m pos new) (i := 0) (pos + new.length)
    (max (pos + new.length) n - (pos + new.length))
  have hold := Memory.read_add (m := m) (i := 0) pos (n - pos)
  rw [Nat.add_sub_cancel' (by omega)] at hsplit hold
  have hfront := Memory.read_write_append m 0 pos new
  rw [Nat.zero_add] at hfront hsplit hold
  rw [hsplit, hfront, Memory.read_write_of_ge (Nat.le_refl _), overlay, hold,
    List.take_left' (Memory.length_read)]
  congr 1
  rw [← List.drop_drop, List.drop_left' (Memory.length_read)]
  rcases Nat.le_total new.length (n - pos) with hle | hge
  · have hrest := Memory.read_add (m := m) (i := pos) new.length (n - pos - new.length)
    rw [Nat.add_sub_cancel' hle] at hrest
    rw [hrest, List.drop_left' (Memory.length_read)]
    congr 1
    omega
  · rw [List.drop_eq_nil_of_le (by rw [Memory.length_read]; exact hge),
      show max (pos + new.length) n - (pos + new.length) = 0 by omega, Memory.read_zero]

/-- What an operation leaves of the state of an open file. -/
structure After (c : Config) (others : Nat → Prop) (sdata data : List UInt8) (pos : Nat)
    (s t : State) : Prop where
  inv : Inv c others sdata data t
  safe : Safe c others s sdata t
  pos : t.file.pos = pos
  append : t.file.append = s.file.append
  removed : t.file.removed = s.file.removed

theorem Safe.trans {u : State} (h₁ : Safe c others s sdata t) (h₂ : Safe c others t sdata u) :
    Safe c others s sdata u :=
  ⟨h₂.same.trans h₁.same, h₂.saved, fun b hb => by rw [h₂.rest b hb, h₁.rest b hb],
    h₁.past.trans h₂.past⟩

theorem Safe.failed {u : State} (h₁ : Safe c others s sdata t)
    (h₂ : Failed c others env t sdata u) : Failed c others env s sdata u :=
  ⟨h₁.trans h₂.toSafe, h₂.cause.imp_left fun hb => hb.earlier h₁.past⟩

theorem After.trans {data' : List UInt8} {pos' : Nat} {u : State}
    (h₁ : After c others sdata data pos s t) (h₂ : After c others sdata data' pos' t u) :
    After c others sdata data' pos' s u :=
  ⟨h₂.inv, h₁.safe.trans h₂.safe, h₂.pos, h₂.append.trans h₁.append,
    h₂.removed.trans h₁.removed⟩

theorem Inv.after (h : Inv c others sdata data s) : After c others sdata data s.file.pos s s :=
  ⟨h, ⟨rfl, h.saved, fun _ _ => rfl, List.suffix_refl _⟩, rfl, rfl, rfl⟩

/-! ## Files at rest -/

theorem Stored.head_ne {head : Nat} (h : Stored c d head data) : head ≠ blockInline := by
  obtain ⟨blocks, n, hh, -, hlast⟩ := h
  have hin := hh.inside n (Nat.le_refl n)
  have hcount := c.blockCount_le
  omega

theorem Inv.rawsize (h : Inv c others sdata data s) : s.file.rawsize = data.length := by
  rcases h.mode with hinl | ⟨hidle, hr⟩ | ⟨hwriting, -, old, cur, hw, -, -, hdata⟩
  · rw [← hinl.data, Memory.length_read]
  · simp [File.rawsize, hidle, hr.size]
  · rw [File.rawsize, if_pos hwriting, hw.pos, hw.size, hdata, List.length_append,
      List.length_drop]
    omega

theorem wp_onFile {α : Type} {x : Blocks → (File → Option Err) → EStateM Err File α}
    {Q : α → State → Prop} {E : Err → State → Prop} :
    Wp (onFile env x) s Q E ↔
      Wp (x s.d (env.read s)) s.file (fun a f => Q a { s.asked (.read none) with file := f })
        (fun e f => E e { s.asked (.read (some f)) with file := f }) := by
  unfold Wp onFile
  cases x s.d (env.read s) s.file <;> rfl

theorem InlineFile.reader (h : InlineFile c data f) (hidle : f.writing = false) :
    InlineReader c data f where
  inl := h.inl
  size := by rw [← h.data, Memory.length_read, File.rawsize, hidle, if_neg (by decide)]
  size_lt := Nat.lt_of_le_of_lt h.size_le (inlineMax_lt c)
  buffer := by
    have hdata := h.data
    rwa [File.rawsize, hidle, if_neg (by decide)] at hdata
  cursor := h.cursor

/-- Reading a file that has nothing to be flushed. -/
theorem readIdle_wp (h : Inv c others sdata data s) (hidle : s.file.writing = false) (n : Nat) :
    Wp (onFile env fun d fault => lfsFileFlushedread c d fault n) s
      (fun out t => out = (data.drop s.file.pos).take n ∧ Inv c others sdata data t ∧
        Safe c others s sdata t ∧ t.file.pos = s.file.pos + out.length ∧
        s.file.ReadFrom t.file)
      (fun _ t => Failed c others env s sdata t) := by
  have hpos : ∀ out : List UInt8, out = (data.drop s.file.pos).take n →
      s.file.pos + out.length ≤ fileMax := by
    rintro out rfl
    have hle := h.pos_le
    have hlen := h.length_le
    rw [List.length_take, List.length_drop]
    omega
  have hsafe : ∀ q (g : File), Safe c others s sdata { s.asked q with file := g } := fun q g =>
    ⟨rfl, h.saved, fun _ _ => rfl, List.suffix_cons _ _⟩
  rw [wp_onFile]
  rcases h.mode with hinl | ⟨-, hr⟩ | ⟨hwriting, -⟩
  · refine ((hinl.reader hidle).lfsFileFlushedread_wp n).mono ?_ fun _ _ => False.elim
    rintro out g ⟨hg, hout, hgpos, hfrom⟩
    have hgidle : g.writing = false := hfrom.writing.trans hidle
    refine ⟨hout, ⟨h.saved, .inl ⟨hg.inl, hfrom.head.trans hinl.head, hfrom.size ▸ hinl.size_le,
      ?_, hg.cursor, fun hb => absurd (hgidle.symm.trans hb) (by decide)⟩, hgpos ▸ hpos out hout,
      h.length_le, hfrom.errored.trans h.errored,
      fun _ hb => absurd (hgidle.symm.trans hb) (by decide),
      fun hd _ => h.clean (hfrom.dirty.symm.trans hd) hidle⟩, hsafe _ g, hgpos, hfrom⟩
    rw [File.rawsize, hgidle, if_neg (by decide)]
    exact hg.buffer
  · refine (hr.lfsFileFlushedread_wp n).mono ?_ fun e g he => ?_
    rintro out g ⟨hg, hout, hgpos, hfrom⟩
    have hgidle : g.writing = false := hfrom.writing.trans hidle
    exact ⟨hout, ⟨h.saved, .inr (.inl ⟨hgidle, hg⟩), hgpos ▸ hpos out hout, h.length_le,
      hfrom.errored.trans h.errored, fun _ hb => absurd (hgidle.symm.trans hb) (by decide),
      fun hd _ => h.clean (hfrom.dirty.symm.trans hd) hidle⟩, hsafe _ g, hgpos, hfrom⟩
    have hfails : env.Fails c others s (.read (some g)) :=
      ⟨g, rfl, he.trans_ne (Option.some_ne_none e)⟩
    exact ⟨hsafe _ g, .inl (.of_asked hfails (List.suffix_refl _) rfl)⟩
  · exact absurd (hwriting.symm.trans hidle) (by decide)

/-- `lfs_file_rawread` delivers what follows the position. -/
theorem lfsFileRawread_wp (hhonest : env.Honest c others) (h : Inv c others sdata data s)
    (n : Nat) :
    Wp (lfsFileRawread c env n) s
      (fun out t => out = (data.drop s.file.pos).take n ∧
        After c others sdata data (s.file.pos + out.length) s t)
      (fun _ t => Failed c others env s sdata t) := by
  unfold lfsFileRawread
  simp only [wp_bind, wp_getFile]
  by_cases hwriting : s.file.writing = true
  · rw [if_pos hwriting]
    refine (lfsFileFlush_wp hhonest h).bind ?_ fun e t ht => ht
    rintro ⟨⟩ t ⟨hinv, hsafe, hflushed⟩
    refine (readIdle_wp hinv hflushed.writing n).mono ?_ fun e t' ht => hsafe.failed ht
    rintro out t' ⟨hout, hinv', hsafe', hpos, hfrom⟩
    rw [hflushed.pos] at hout hpos
    exact ⟨hout, hinv', hsafe.trans hsafe', hpos, hfrom.append.trans hflushed.append,
      hfrom.removed.trans hflushed.removed⟩
  · rw [if_neg hwriting]
    refine (readIdle_wp h (Bool.eq_false_of_not_eq_true hwriting) n).mono ?_ fun e t ht => ht
    rintro out t ⟨hout, hinv, hsafe, hpos, hfrom⟩
    exact ⟨hout, hinv, hsafe, hpos, hfrom.append, hfrom.removed⟩

/-! ## Writing -/

theorem Writer.inv (hw : Writer c others s₀ sdata old cur t) (hwriting : t.file.writing = true)
    (hreading : t.file.reading = false)
    (hlate : t.file.head = blockInline → old.length ≤ cur.length)
    (hcur : cur ≠ []) (herrored : t.file.errored = false)
    (happend : t.file.append = true → old.length ≤ cur.length) (hmax : cur.length ≤ fileMax)
    (hold : old.length ≤ fileMax) :
    Inv c others sdata (cur ++ old.drop cur.length) t where
  saved := hw.saved
  mode := .inr (.inr ⟨hwriting, hreading, old, cur,
    { hw with
      same := rfl
      rest := fun _ _ => rfl
      past := List.suffix_refl _
      start := hw.list
      kept := fun _ _ => rfl },
    fun hhead => by rw [hw.size, hw.pos]; exact hlate hhead, hcur, rfl⟩)
  pos_le := by rw [hw.pos]; exact hmax
  length_le := by
    rw [List.length_append, List.length_drop]
    omega
  errored := herrored
  append happ _ := by rw [hw.size, hw.pos]; exact happend happ
  clean _ hidle := absurd (hwriting.symm.trans hidle) (by decide)

/-- What a write leaves of the state of an open file. -/
structure Wrote (c : Config) (others : Nat → Prop) (sdata data new : List UInt8) (s t : State) :
    Prop extends
    After c others sdata (overlay data s.file.pos new) (s.file.pos + new.length) s t where
  reading : t.file.reading = false
  size : t.file.size = s.file.size

/-- Outside of a write nothing needs to be written to make room. -/
theorem writeOutline_skip (h : ¬(s.file.inl = true ∧ max (s.file.pos + new.length) s.file.size >
    inlineMax c)) {Q : Nat → State → Prop} {E : Err → State → Prop} :
    Wp (lfsFileFlushedwrite c env new) s Q E ↔
      Wp (writeLoop c env new.length new) s (fun _ t => Q new.length t)
        fun e t => E e { t with file := { t.file with errored := true } } := by
  unfold lfsFileFlushedwrite writeOutline
  simp only [wp_orErred, wp_bind, wp_getFile]
  rw [if_neg h]
  rfl

theorem Wrote.nil (h : Inv c others sdata data s) (hreading : s.file.reading = false) :
    Wrote c others sdata data [] s s where
  toAfter := by
    rw [overlay_nil]
    exact h.after
  reading := hreading
  size := rfl

/-- A write to the buffer of an inline file. -/
theorem writeInline_wp (h : Inv c others sdata data s) (hinl : InlineFile c data s.file)
    (hreading : s.file.reading = false) (hpos : s.file.pos ≤ data.length) (hnew : new ≠ [])
    (hfit : s.file.pos + new.length ≤ inlineMax c)
    (happ : s.file.append = true → s.file.size ≤ s.file.pos) :
    Wp (writeLoop c env new.length new) s (fun _ t => Wrote c others sdata data new s t)
      (fun _ t => Failed c others env s sdata t) := by
  have hlen := List.length_pos_iff.2 hnew
  have hblock := inlineMax_lt c
  have hmax : s.file.pos + new.length ≤ fileMax := by
    have hle : inlineMax c ≤ 0x3fe := Nat.min_le_left _ _
    have hfile : fileMax = 2 ^ 31 - 1 := rfl
    omega
  obtain ⟨k, hk⟩ : ∃ k, new.length = k + 1 := ⟨new.length - 1, by omega⟩
  rw [hk, writeLoop, if_neg hnew]
  have hfirst : Wp (writeBlock c env) s
      (fun _ t => t = { s with file := { s.file with
        block := blockInline, off := s.file.pos, writing := true } })
      (fun _ _ => False) := by
    unfold writeBlock
    simp only [wp_bind, wp_getFile]
    by_cases hcond : s.file.writing = false ∨ s.file.off = c.blockSize
    · rw [if_pos hcond, if_pos hinl.inl]
      exact rfl
    · rw [if_neg hcond]
      have hwriting : s.file.writing = true := by simp_all
      obtain ⟨-, -, -, hb, ho⟩ := hinl.busy hwriting
      have hfile : s.file = { s.file with
          block := blockInline, off := s.file.pos, writing := true } := by
        ext <;> first | rfl | assumption
      exact s.file_self.symm.trans (congrArg (fun f => { s with file := f }) hfile)
  refine hfirst.bind ?_ fun _ _ => False.elim
  rintro ⟨⟩ t rfl
  unfold writePiece
  simp only [wp_bind, wp_getFile]
  rw [show min new.length (c.blockSize - s.file.pos) = new.length by omega, List.take_length]
  cases hcount : c.blockCount with
  | zero =>
    exact ⟨⟨rfl, h.saved, fun _ _ => rfl, List.suffix_refl _⟩, .inr fun b hb => by omega⟩
  | succ fuel =>
    rw [progLoop]
    simp only [wp_bind, wp_get]
    rw [if_pos hinl.inl]
    simp only [wp_setFile, wp_pure]
    rw [List.drop_length]
    have hloop : ∀ fuel, writeLoop c env fuel [] = pure () := by
      intro fuel
      cases fuel <;> rfl
    rw [hloop, wp_pure]
    have hsize : max (s.file.pos + new.length) s.file.rawsize =
        max (s.file.pos + new.length) s.file.size := by
      rw [File.rawsize]
      split <;> omega
    have hread := read_write_overlay s.file.buffer new (h.rawsize ▸ hpos)
    rw [hinl.data, hsize] at hread
    refine ⟨⟨⟨h.saved, .inl ⟨hinl.inl, hinl.head, hinl.size_le, hread, ?_, ?_⟩, hmax, ?_,
      h.errored, ?_, ?_⟩, ⟨rfl, h.saved, fun _ _ => rfl, List.suffix_refl _⟩, rfl, rfl, rfl⟩,
      hreading, rfl⟩
    · exact fun hr => absurd (hreading.symm.trans hr) (by decide)
    · exact fun _ => ⟨hreading, by show 0 < s.file.pos + new.length; omega, hfit, rfl, rfl⟩
    · rw [length_overlay hpos]
      exact Nat.max_le.2 ⟨hmax, h.length_le⟩
    · exact fun ha _ => Nat.le_trans (happ ha) (Nat.le_add_right _ _)
    · exact fun _ hb => absurd hb.symm Bool.false_ne_true

theorem InlineFile.take_eq (h : InlineFile c data f) (hpos : pos ≤ data.length) :
    Memory.read f.buffer 0 pos = data.take pos := by
  have hsplit := Memory.read_add (m := f.buffer) (i := 0) pos (f.rawsize - pos)
  have hlen : f.rawsize = data.length := by rw [← h.data, Memory.length_read]
  rw [Nat.add_sub_cancel' (by omega)] at hsplit
  rw [← h.data, hsplit, List.take_left' (Memory.length_read)]

/-- What lies before the position goes to a block of its own. -/
theorem lfsFileOutline_wp (hhonest : env.Honest c others) (h : Inv c others sdata data s)
    (hinl : InlineFile c data s.file) (hpos : s.file.pos ≤ data.length) :
    Wp (lfsFileOutline env) s
      (fun _ t => Writer c others s sdata (data.take s.file.size) (data.take s.file.pos) t ∧
        t.file.writing = true ∧ t.file.reading = s.file.reading ∧ t.file.head = s.file.head ∧
        t.file.size = s.file.size ∧ t.file.errored = s.file.errored ∧
        t.file.append = s.file.append ∧ t.file.removed = s.file.removed)
      (fun _ t => Failed c others env s sdata t) := by
  have hraw := h.rawsize
  have hsize : s.file.size ≤ data.length := by
    rw [← hraw, File.rawsize]
    split <;> omega
  have hlen : (data.take s.file.pos).length = s.file.pos := by
    rw [List.length_take]
    omega
  have hblock := inlineMax_lt c
  have hmax : s.file.pos ≤ inlineMax c := by
    by_cases hwriting : s.file.writing = true
    · exact (hinl.busy hwriting).2.2.1
    · rw [File.rawsize, if_neg hwriting] at hraw
      have hle := hinl.size_le
      omega
  obtain ⟨s₁, hs₁⟩ : ∃ s₁ : State, s₁ = { s with file := { s.file with off := s.file.pos } } :=
    ⟨_, rfl⟩
  have hbase : Base c others s sdata (data.take s.file.size) s₁ := by
    subst hs₁
    refine ⟨⟨rfl, h.saved, fun _ _ => rfl, List.suffix_refl _⟩, ?_, .inl hinl.head,
      fun _ _ => rfl⟩
    rw [List.length_take]
    exact (Nat.min_eq_left hsize).symm
  have hinl₁ : s₁.file.inl = true := by rw [hs₁]; exact hinl.inl
  have hkept : ∀ b, Kept c others s₁ b →
      (relocateLoop s₁.file s₁.d (env.ask s₁)).1 b = s₁.d b :=
    fun b hb => relocateLoop_kept hhonest (.inl hb)
  unfold lfsFileOutline
  simp only [wp_bind, wp_setFile]
  rw [← hs₁]
  refine wp_lfsFileRelocate (fun d' nblock hr => ?_) fun d' e hr => ?_
  · obtain ⟨hmem, hcopy⟩ := relocateLoop_ok (by rw [hr]) (.inl hinl₁)
    rw [hr] at hcopy hkept
    obtain ⟨hin, hfree⟩ := hhonest s₁ nblock hmem
    obtain ⟨hbase', hless⟩ := hbase.congr
      (t := { s₁.asked .alloc with
        d := d', file := { s₁.file with block := nblock, writing := true, inl := false } })
      hkept rfl rfl rfl (List.suffix_cons _ _)
    have hdata : Memory.read (d' nblock) 0 (data.take s.file.pos).length =
        data.take s.file.pos := by
      rw [hlen, ← hinl.take_eq hpos]
      refine Memory.read_congr fun k _ hk => ?_
      have hbyte := hcopy k (by rw [hs₁]; simpa using hk)
      rw [if_pos hinl₁] at hbyte
      subst hs₁
      exact hbyte
    have htail := Tail.single hin (by omega) hdata
    have hwritten := Written.single hin (by omega) hdata
    rw [hlen] at htail hwritten
    subst hs₁
    exact ⟨⟨hbase', rfl, hlen.symm, (fun hi => absurd hi.symm Bool.false_ne_true),
      fun _ => ⟨htail, hwritten, fun hb => hfree (.inl (hless _ hb))⟩⟩, rfl, rfl, rfl, rfl,
      rfl, rfl, rfl⟩
  · rw [hr] at hkept
    refine ⟨(hbase.congr (t := { s₁.asked .alloc with d := d' }) hkept rfl rfl rfl
      (List.suffix_cons _ _)).1.toSafe,
      cause_of_unserved hhonest hbase.past (fun hserved => ?_) fun b hb => ?_⟩
    · obtain ⟨nblock, hok⟩ := relocateLoop_served (f := s₁.file) (d := s₁.d) hserved
      rw [hr] at hok
      simp at hok
    · have hframe := relocateLoop_frame (f := s₁.file) (d := s₁.d) hb
      rwa [hr] at hframe

/-- A write to a list of blocks, from a state of the file at rest or being written to. -/
theorem writeList_wp (hhonest : env.Honest c others) (h : Inv c others sdata data s)
    (hw : Writer c others s sdata old cur t) (hsafe : t.file.size = s.file.size)
    (hreading : t.file.reading = false) (herrored : t.file.errored = false)
    (happend : t.file.append = s.file.append) (hremoved : t.file.removed = s.file.removed)
    (hpos : cur.length = s.file.pos) (hmax : s.file.pos + new.length ≤ fileMax) (hnew : new ≠ [])
    (hlate : t.file.head = blockInline → old.length ≤ s.file.pos + new.length)
    (happ : s.file.append = true → s.file.size ≤ s.file.pos)
    (hdata : overlay data s.file.pos new = (cur ++ new) ++ old.drop (cur ++ new).length) :
    Wp (writeLoop c env new.length new) t (fun _ u => Wrote c others sdata data new s u)
      (fun _ u => Failed c others env s sdata u) := by
  have hbound := fileMax_lt
  have hlen : (cur ++ new).length = s.file.pos + new.length := by
    rw [List.length_append, hpos]
  have hsize := hw.size
  have hraw := h.rawsize
  have hold : old.length ≤ fileMax := by
    have hle := h.length_le
    rw [← hraw, File.rawsize] at hle
    split at hle <;> omega
  refine (writeLoop_wp hhonest hw (by omega) (Nat.le_refl _)).mono ?_ fun e u hu => hu
  rintro ⟨⟩ u ⟨hw', hsame, hwriting⟩
  have hbusy := hwriting (.inl hnew)
  refine ⟨⟨?_, hw'.toSafe, hw'.pos.trans hlen, hsame.append.trans happend,
    hsame.removed.trans hremoved⟩, hsame.reading.trans hreading, hsame.size.trans hsafe⟩
  rw [hdata]
  refine hw'.inv hbusy (hsame.reading.trans hreading) (fun hhead => ?_) (by simp [hnew])
    (hsame.errored.trans herrored) (fun ha => ?_) (by omega) hold
  · rw [hlen]
    exact hlate (hsame.head.symm.trans hhead)
  · have hle := happ (happend ▸ hsame.append ▸ ha)
    omega

/-- `lfs_file_flushedwrite` replaces what is there, wherever the file lies. -/
theorem flushedWrite_wp (hhonest : env.Honest c others) (h : Inv c others sdata data s)
    (hreading : s.file.reading = false) (happ : s.file.append = true → s.file.size ≤ s.file.pos)
    (hpos : s.file.pos ≤ data.length) (hmax : s.file.pos + new.length ≤ fileMax) :
    Wp (lfsFileFlushedwrite c env new) s
      (fun n t => n = new.length ∧ Wrote c others sdata data new s t)
      (fun _ t => Failed c others env s sdata t) := by
  have hraw := h.rawsize
  by_cases hnew : new = []
  · subst hnew
    have hskip : ¬(s.file.inl = true ∧ max (s.file.pos + ([] : List UInt8).length) s.file.size >
        inlineMax c) := by
      rintro ⟨hinl, hgt⟩
      rcases h.mode with hi | ⟨-, hr⟩ | ⟨-, -, old, cur, hw, -⟩
      · have hsize := hi.size_le
        rw [List.length_nil, Nat.add_zero] at hgt
        by_cases hwriting : s.file.writing = true
        · have hle := (hi.busy hwriting).2.2.1
          omega
        · rw [File.rawsize, if_neg hwriting] at hraw
          omega
      · exact absurd (hr.inl.symm.trans hinl) (by decide)
      · exact absurd (hw.inl.symm.trans hinl) (by decide)
    rw [writeOutline_skip hskip]
    exact ⟨rfl, .nil h hreading⟩
  rcases h.mode with hinl | ⟨hidle, hr⟩ | ⟨hwriting, -, old, cur, hw, hlate, hcur, hdata⟩
  · by_cases hfit : s.file.pos + new.length ≤ inlineMax c
    · have hskip : ¬(s.file.inl = true ∧ max (s.file.pos + new.length) s.file.size >
          inlineMax c) := by
        rintro ⟨-, hgt⟩
        have hsize := hinl.size_le
        omega
      rw [writeOutline_skip hskip]
      refine (writeInline_wp h hinl hreading hpos hnew hfit happ).mono ?_ ?_
      · exact fun _ t ht => ⟨rfl, ht⟩
      · exact fun e t ht => ht.errored
    · -- it does not fit in the directory any more
      have hout : s.file.inl = true ∧ max (s.file.pos + new.length) s.file.size > inlineMax c :=
        ⟨hinl.inl, by omega⟩
      have hsize := hinl.size_le
      have hshort : data.length ≤ s.file.pos + new.length := by
        rw [← hraw, File.rawsize]
        split <;> omega
      unfold lfsFileFlushedwrite writeOutline
      simp only [wp_orErred, wp_bind, wp_getFile]
      rw [if_pos hout]
      refine (lfsFileOutline_wp hhonest h hinl hpos).mono ?_ ?_
      · rintro ⟨⟩ t ⟨hw, -, hreading', hhead, hsize', herrored, happend, hremoved⟩
        have hlen : (data.take s.file.pos).length = s.file.pos := by
          rw [List.length_take]
          omega
        refine (writeList_wp hhonest h hw hsize' (hreading'.trans hreading)
          (herrored.trans h.errored) happend hremoved hlen hmax hnew (fun _ => ?_) happ ?_).mono
          ?_ ?_
        · rw [List.length_take]
          omega
        · have hall : (data.take s.file.pos ++ new).length = s.file.pos + new.length := by
            rw [List.length_append, hlen]
          have hnil : (data.take s.file.size).drop (s.file.pos + new.length) = [] :=
            List.drop_eq_nil_of_le (by rw [List.length_take]; omega)
          rw [overlay_take hpos, hall, hnil, List.drop_eq_nil_of_le hshort]
        · exact fun _ t ht => ⟨rfl, ht⟩
        · exact fun e t ht => ht.errored
      · exact fun e t ht => ht.errored
  · have hskip : ¬(s.file.inl = true ∧ max (s.file.pos + new.length) s.file.size >
        inlineMax c) := fun hc => absurd (hr.inl.symm.trans hc.1) (by decide)
    rw [writeOutline_skip hskip]
    have hlen : (data.take s.file.pos).length = s.file.pos := by
      rw [List.length_take]
      omega
    have hw : Writer c others s sdata data (data.take s.file.pos) s := by
      refine ⟨⟨⟨rfl, h.saved, fun _ _ => rfl, List.suffix_refl _⟩, hr.size, .inr hr.list,
        fun _ _ => rfl⟩, hr.inl, hlen.symm,
        fun _ => ⟨hr.list, by rw [hlen]; exact hpos, by rw [hlen]⟩, fun hb => ?_⟩
      exact absurd (hidle.symm.trans hb) (by decide)
    refine (writeList_wp hhonest h hw rfl hreading h.errored rfl rfl hlen hmax hnew
      (fun hhead => ?_) happ (overlay_take hpos)).mono ?_ ?_
    · rcases hr.list with rfl | hs
      · exact Nat.zero_le _
      · exact absurd hhead hs.head_ne
    · exact fun _ t ht => ⟨rfl, ht⟩
    · exact fun e t ht => ht.errored
  · have hskip : ¬(s.file.inl = true ∧ max (s.file.pos + new.length) s.file.size >
        inlineMax c) := fun hc => absurd (hw.inl.symm.trans hc.1) (by decide)
    rw [writeOutline_skip hskip]
    have hsize := hw.size
    refine (writeList_wp hhonest h hw rfl hreading h.errored rfl rfl hw.pos.symm hmax hnew
      (fun hhead => ?_) happ ?_).mono ?_ ?_
    · have hle := hlate hhead
      omega
    · rw [hdata, hw.pos, overlay_append rfl]
    · exact fun _ t ht => ⟨rfl, ht⟩
    · exact fun e t ht => ht.errored

/-- Zeros up to a position. -/
def padTo (data : List UInt8) (pos : Nat) : List UInt8 :=
  data ++ List.replicate (pos - data.length) 0

theorem padTo_of_le (h : pos ≤ data.length) : padTo data pos = data := by
  rw [padTo, Nat.sub_eq_zero_of_le h, List.replicate_zero, List.append_nil]

theorem length_padTo : (padTo data pos).length = max pos data.length := by
  rw [padTo, List.length_append, List.length_replicate]
  omega

theorem overlay_end : overlay data data.length new = data ++ new := by
  rw [overlay, List.take_length, List.drop_eq_nil_of_le (Nat.le_add_right _ _), List.append_nil]

theorem padTo_concat (h : data.length < pos) : padTo (data ++ [0]) pos = padTo data pos := by
  obtain ⟨k, hk⟩ : ∃ k, pos - data.length = k + 1 := ⟨pos - data.length - 1, by omega⟩
  rw [padTo, padTo, List.length_append, List.length_singleton, hk, List.replicate_succ,
    List.append_assoc, show pos - (data.length + 1) = k by omega]
  rfl

theorem zeroLoop_wp (hhonest : env.Honest c others) (h : Inv c others sdata data s)
    (hreading : s.file.reading = false) (happ : s.file.append = true → s.file.size ≤ s.file.pos)
    (hpos : s.file.pos = data.length) (hmax : pos ≤ fileMax) (fuel : Nat)
    (hfuel : pos - data.length ≤ fuel) :
    Wp (zeroLoop c env pos fuel) s
      (fun _ t => After c others sdata (padTo data pos) (padTo data pos).length s t ∧
        t.file.reading = false ∧ t.file.size = s.file.size)
      (fun _ t => Failed c others env s sdata t) := by
  induction fuel generalizing s data with
  | zero =>
    rw [zeroLoop, wp_pure, padTo_of_le (by omega), ← hpos]
    exact ⟨h.after, hreading, rfl⟩
  | succ fuel ih =>
    rw [zeroLoop]
    simp only [wp_bind, wp_getFile]
    by_cases hless : s.file.pos < pos
    · rw [if_pos hless]
      refine (flushedWrite_wp hhonest h hreading happ (by omega)
        (by rw [List.length_singleton]; omega)).bind ?_ fun e t ht => ht
      rintro n t ⟨-, hw⟩
      have hinv := hw.inv
      have htpos := hw.pos
      have htsize := hw.size
      rw [hpos, overlay_end] at hinv
      rw [List.length_singleton] at htpos
      refine (ih hinv hw.reading (fun ha => ?_) ?_ ?_).mono ?_ fun e u hu => hw.safe.failed hu
      · have hle := happ (hw.append ▸ ha)
        omega
      · rw [List.length_append, List.length_singleton, htpos, hpos]
      · rw [List.length_append, List.length_singleton]
        omega
      · rintro ⟨⟩ u ⟨hafter, hr, hsize⟩
        rw [padTo_concat (by omega)] at hafter
        exact ⟨hw.toAfter.trans hafter, hr, hsize.trans htsize⟩
    · rw [if_neg hless, wp_pure, padTo_of_le (by omega), ← hpos]
      exact ⟨h.after, hreading, rfl⟩

theorem Inv.writing_pos_le (h : Inv c others sdata data s) (hwriting : s.file.writing = true) :
    s.file.pos ≤ data.length := by
  have hraw := h.rawsize
  rw [File.rawsize, if_pos hwriting] at hraw
  omega

theorem Inv.idle_size (h : Inv c others sdata data s) (hidle : s.file.writing = false) :
    s.file.size = data.length := by
  have hraw := h.rawsize
  rwa [File.rawsize, hidle, if_neg (by decide)] at hraw

/-- A file that is neither read nor written to can be moved to any position. -/
theorem Inv.moved (h : Inv c others sdata data s) (hreading : s.file.reading = false)
    (hidle : s.file.writing = false) (hpos : pos ≤ fileMax) :
    Inv c others sdata data { s with file := { s.file with pos } } where
  saved := h.saved
  mode := by
    rcases h.mode with hinl | ⟨-, hr⟩ | ⟨hwriting, -⟩
    · refine .inl ⟨hinl.inl, hinl.head, hinl.size_le, ?_, fun hr => ?_, fun hb => ?_⟩
      · have hdata := hinl.data
        rw [File.rawsize, hidle, if_neg (by decide)] at hdata
        rw [File.rawsize, hidle, if_neg (by decide)]
        exact hdata
      · exact absurd (hreading.symm.trans hr) (by decide)
      · exact absurd (hidle.symm.trans hb) (by decide)
    · exact .inr (.inl ⟨hidle, hr.inl, hr.size, hr.list,
        fun hr => absurd (hreading.symm.trans hr) (by decide)⟩)
    · exact absurd (hwriting.symm.trans hidle) (by decide)
  pos_le := hpos
  length_le := h.length_le
  errored := h.errored
  append _ hb := absurd (hidle.symm.trans hb) (by decide)
  clean := h.clean

/-- The zeros between the end of the file and its position. -/
theorem writeZeros_wp (hhonest : env.Honest c others) (h : Inv c others sdata data s)
    (hreading : s.file.reading = false)
    (happ : s.file.append = true → s.file.size ≤ s.file.pos) :
    Wp (writeZeros c env) s
      (fun _ t => After c others sdata (padTo data s.file.pos) s.file.pos s t ∧
        t.file.reading = false ∧ (t.file.append = true → t.file.size ≤ t.file.pos))
      (fun _ t => Failed c others env s sdata t) := by
  unfold writeZeros
  simp only [wp_bind, wp_getFile]
  by_cases hcond : s.file.writing = false ∧ s.file.pos > s.file.size
  · obtain ⟨hidle, hgap⟩ := hcond
    have hsize := h.idle_size hidle
    have hlen := h.length_le
    rw [if_pos ⟨hidle, hgap⟩]
    simp only [wp_bind, wp_setFile]
    have hinv := h.moved hreading hidle (show s.file.size ≤ fileMax by omega)
    refine (zeroLoop_wp hhonest hinv hreading (fun _ => Nat.le_refl _) hsize h.pos_le
      (s.file.pos - s.file.size) (by omega)).mono ?_ ?_
    · rintro ⟨⟩ t ⟨ha, hr, hts⟩
      have htpos : t.file.pos = s.file.pos := by
        rw [ha.pos, length_padTo]
        omega
      refine ⟨⟨ha.inv, ⟨ha.safe.same, ha.safe.saved, ha.safe.rest, ha.safe.past⟩, htpos,
        ha.append, ha.removed⟩, hr, fun happ' => ?_⟩
      have hle := happ (ha.append ▸ happ')
      rw [htpos, hts]
      exact hle
    · exact fun e t ht => ⟨⟨ht.same, ht.saved, ht.rest, ht.past⟩, ht.cause⟩
  · rw [if_neg hcond, wp_pure, padTo_of_le]
    · exact ⟨h.after, hreading, happ⟩
    · by_cases hwriting : s.file.writing = true
      · exact h.writing_pos_le hwriting
      · have hidle := Bool.eq_false_of_not_eq_true hwriting
        have hsize := h.idle_size hidle
        by_contra hgt
        exact hcond ⟨hidle, by omega⟩

theorem Inv.reading_idle (h : Inv c others sdata data s) (hreading : s.file.reading = true) :
    s.file.writing = false := by
  by_contra hne
  have hwriting : s.file.writing = true := by simpa using hne
  rcases h.mode with hinl | ⟨hidle, -⟩ | ⟨-, hr, -⟩
  · exact absurd ((hinl.busy hwriting).1.symm.trans hreading) (by decide)
  · exact hne hidle
  · exact absurd (hr.symm.trans hreading) (by decide)

/-- A file that is not written to needs no flushing. -/
theorem wp_lfsFileFlush_idle (hidle : s.file.writing = false) {Q : Unit → State → Prop}
    {E : Err → State → Prop} :
    Wp (lfsFileFlush c env) s Q E ↔ Q () { s with file := { s.file with reading := false } } := by
  unfold lfsFileFlush
  simp only [wp_bind, wp_getFile, wp_setFile]
  rw [if_neg (by rw [hidle]; decide)]
  rfl

theorem Inv.notReading (h : Inv c others sdata data s) (hidle : s.file.writing = false) :
    Inv c others sdata data { s with file := { s.file with reading := false } } where
  saved := h.saved
  mode := by
    rcases h.mode with hinl | ⟨-, hr⟩ | ⟨hwriting, -⟩
    · exact .inl ⟨hinl.inl, hinl.head, hinl.size_le, hinl.data,
        (fun hr => absurd hr Bool.false_ne_true),
        fun hb => absurd (hidle.symm.trans hb) (by decide)⟩
    · exact .inr (.inl ⟨hidle, hr.inl, hr.size, hr.list, fun hr => absurd hr Bool.false_ne_true⟩)
    · exact absurd (hwriting.symm.trans hidle) (by decide)
  pos_le := h.pos_le
  length_le := h.length_le
  errored := h.errored
  append := h.append
  clean := h.clean

/-- Where a write goes. -/
def writePos (append : Bool) (data : List UInt8) (pos : Nat) : Nat :=
  if append = true ∧ pos < data.length then data.length else pos

theorem writeReady_wp (hhonest : env.Honest c others) (h : Inv c others sdata data s)
    (hreading : s.file.reading = false)
    (happ : s.file.append = true → s.file.size ≤ s.file.pos) (hnew : new.length < 2 ^ 31) :
    Wp (writeReady c env new) s
      (fun n t => s.file.pos + new.length ≤ fileMax ∧ n = new.length ∧
        After c others sdata (overlay (padTo data s.file.pos) s.file.pos new)
          (s.file.pos + new.length) s t)
      (fun e t => (s.file.pos + new.length > fileMax ∧ e = .fbig ∧ t = s) ∨
        (s.file.pos + new.length ≤ fileMax ∧ Failed c others env s sdata t)) := by
  have hpos := h.pos_le
  have hfile := fileMax_lt
  unfold writeReady
  simp only [wp_bind, wp_getFile]
  rw [add32_of_lt (by omega)]
  by_cases hbig : s.file.pos + new.length > fileMax
  · rw [if_pos hbig]
    exact .inl ⟨hbig, rfl, rfl⟩
  rw [if_neg hbig]
  have hmax : s.file.pos + new.length ≤ fileMax := Nat.not_lt.1 hbig
  refine (writeZeros_wp hhonest h hreading happ).bind ?_ fun e t ht => .inr ⟨hmax, ht⟩
  rintro ⟨⟩ t ⟨ha, hr, happ'⟩
  have hp := ha.pos
  refine (flushedWrite_wp hhonest ha.inv hr happ' (by rw [hp, length_padTo]; omega)
    (by omega)).bind ?_ fun e u hu => .inr ⟨hmax, ha.safe.failed hu⟩
  rintro n u ⟨hn, hw⟩
  simp only [wp_bind, wp_setFile, wp_pure]
  have hafter := hw.toAfter
  rw [hp] at hafter
  have herrored := hafter.inv.errored
  have hsame : { u with file := { u.file with errored := false } } = u := by
    have hfile : { u.file with errored := false } = u.file := by
      ext <;> first | rfl | exact herrored.symm
    exact (congrArg (fun f => { u with file := f }) hfile).trans u.file_self
  rw [hsame]
  exact ⟨hmax, hn, ha.trans hafter⟩

theorem writeMove_wp (h : Inv c others sdata data s) (hreading : s.file.reading = false) :
    Wp (ε := Err) writeMove s
      (fun _ t => After c others sdata data (writePos s.file.append data s.file.pos) s t ∧
        t.file.reading = false ∧ (t.file.append = true → t.file.size ≤ t.file.pos))
      (fun _ _ => False) := by
  refine wp_setFile.2 ?_
  by_cases hcond : s.file.append = true ∧ s.file.pos < s.file.size
  · -- to the end
    rw [if_pos hcond]
    have hidle : s.file.writing = false := by
      by_contra hne
      have hle := h.append hcond.1 (by simpa using hne)
      omega
    have hsize := h.idle_size hidle
    have hlen := h.length_le
    rw [writePos, if_pos (hsize ▸ hcond), ← hsize]
    exact ⟨⟨h.moved hreading hidle (by omega),
      ⟨rfl, h.saved, fun _ _ => rfl, List.suffix_refl _⟩, rfl, rfl, rfl⟩, hreading,
      fun _ => Nat.le_refl _⟩
  · rw [if_neg hcond, s.file_self]
    have hstay : writePos s.file.append data s.file.pos = s.file.pos := by
      refine if_neg fun ⟨ha, hless⟩ => hcond ⟨ha, ?_⟩
      by_cases hwriting : s.file.writing = true
      · have hraw := h.rawsize
        have hle := h.append ha hwriting
        rw [File.rawsize, if_pos hwriting] at hraw
        omega
      · rwa [h.idle_size (Bool.eq_false_of_not_eq_true hwriting)]
    rw [hstay]
    exact ⟨h.after, hreading, fun ha => Nat.not_lt.1 fun hlt => hcond ⟨ha, hlt⟩⟩

/-- `lfs_file_rawwrite` writes at the position, with zeros before it where the file is shorter. -/
theorem lfsFileRawwrite_wp (hhonest : env.Honest c others) (h : Inv c others sdata data s)
    (hnew : new.length < 2 ^ 31) (hp : pos = writePos s.file.append data s.file.pos) :
    Wp (lfsFileRawwrite c env new) s
      (fun n t => pos + new.length ≤ fileMax ∧ n = new.length ∧
        After c others sdata (overlay (padTo data pos) pos new) (pos + new.length) s t)
      (fun e t => (pos + new.length > fileMax ∧ e = .fbig ∧ After c others sdata data pos s t) ∨
        (pos + new.length ≤ fileMax ∧ Failed c others env s sdata t)) := by
  have hrest : ∀ t, After c others sdata data s.file.pos s t → t.file.reading = false →
      Wp (do writeMove; writeReady c env new) t
        (fun n u => pos + new.length ≤ fileMax ∧ n = new.length ∧
          After c others sdata (overlay (padTo data pos) pos new) (pos + new.length) s u)
        (fun e u => (pos + new.length > fileMax ∧ e = .fbig ∧ After c others sdata data pos s u) ∨
          (pos + new.length ≤ fileMax ∧ Failed c others env s sdata u)) := by
    intro t ht hreading
    refine (writeMove_wp ht.inv hreading).bind ?_ fun _ _ => False.elim
    rintro ⟨⟩ u ⟨hu, hr, happ⟩
    rw [ht.append, ht.pos, ← hp] at hu
    have hpos := hu.pos
    refine (writeReady_wp hhonest hu.inv hr happ hnew).mono ?_ ?_
    · rintro n v ⟨hmax, hn, hv⟩
      rw [hpos] at hmax hv
      exact ⟨hmax, hn, (ht.trans hu).trans hv⟩
    · rintro e v (⟨hbig, he, rfl⟩ | ⟨hmax, hv⟩)
      · exact .inl ⟨hpos ▸ hbig, he, ht.trans hu⟩
      · exact .inr ⟨hpos ▸ hmax, (ht.safe.trans hu.safe).failed hv⟩
  unfold lfsFileRawwrite
  simp only [wp_bind, wp_getFile]
  by_cases hreading : s.file.reading = true
  · have hidle := h.reading_idle hreading
    rw [if_pos hreading, wp_bind, wp_lfsFileFlush_idle hidle]
    exact hrest _ ⟨h.notReading hidle, ⟨rfl, h.saved, fun _ _ => rfl, List.suffix_refl _⟩, rfl,
      rfl, rfl⟩ rfl
  · rw [if_neg hreading]
    exact hrest s h.after (Bool.eq_false_of_not_eq_true hreading)

end Bl616cl.Lfs
