import Bl616cl.Lfs.Operations
import Bl616cl.Lib.Run

/-!
# littlefs: runs of an open file

An open file is a list of bytes and a position to its user (`View`). Every run of operations
behaves so, until the device fails or is full, and what was last synced stays as it was.
-/

namespace Bl616cl.Lfs

open Bl616cl.Lib

inductive Op where
  | read (size : Nat)
  | write (data : List UInt8)
  | seek (off : Int) (whence : Whence)
  | truncate (size : Nat)
  | sync

inductive Res where
  | bytes (data : List UInt8)
  | num (n : Nat)
  | done
  deriving DecidableEq

variable (c : Config) (env : Env)

def exec : Op → M Res
  | .read size => .bytes <$> lfsFileRawread c env size
  | .write data => .num <$> lfsFileRawwrite c env data
  | .seek off whence => .num <$> lfsFileRawseek c env off whence
  | .truncate size => (fun _ => .done) <$> lfsFileRawtruncate c env size
  | .sync => (fun _ => .done) <$> lfsFileRawsync c env

def next (s : State) (op : Op) : State :=
  match exec c env op s with
  | .ok _ t => t
  | .error _ t => t

/-- An open file as its user sees it, and what is committed of it. -/
structure View where
  data : List UInt8
  pos : Nat
  saved : List UInt8
  append : Bool
  removed : Bool

def View.target (v : View) (off : Int) (whence : Whence) : Except Err Nat :=
  let npos : Int := match whence with
    | .set => off
    | .cur => v.pos + off
    | .end => v.data.length + off
  if npos < 0 ∨ npos > (fileMax : Int) then .error .inval else .ok npos.toNat

def View.step (v : View) : Op → Except Err Res × View
  | .read size =>
    let out := (v.data.drop v.pos).take size
    (.ok (.bytes out), { v with pos := v.pos + out.length })
  | .write new =>
    let pos := writePos v.append v.data v.pos
    if pos + new.length > fileMax then (.error .fbig, { v with pos })
    else
      (.ok (.num new.length),
        { v with data := overlay (padTo v.data pos) pos new, pos := pos + new.length })
  | .seek off whence =>
    match v.target off whence with
    | .error e => (.error e, v)
    | .ok npos => (.ok (.num npos), { v with pos := npos })
  | .truncate size =>
    if size > fileMax then (.error .inval, v)
    else (.ok .done, { v with data := resize v.data size })
  | .sync => (.ok .done, if v.removed then v else { v with saved := v.data })

/-- No seek to a place in the cache, and no cut, where the file is at a seam. -/
def Allowed (s : State) : Op → Prop
  | .write data => data.length < 2 ^ 31
  | .seek off whence => ∀ npos, s.file.npos off whence = .ok npos →
      ¬(s.file.AtSeam c ∧ seekHit c env s npos = true)
  | .truncate _ => ¬s.file.AtSeam c
  | _ => True

/-- The state of the file is what its user sees. -/
structure Rep (others : Nat → Prop) (s : State) (v : View) : Prop where
  inv : Inv c others v.saved v.data s
  pos : s.file.pos = v.pos
  append : s.file.append = v.append
  removed : s.file.removed = v.removed

/-- The run goes as the user sees it until an operation fails for a reason. What is committed
holds what the user last synced, and the rest of the file system stays as it was. -/
def Follows (others : Nat → Prop) : List Op → State → View → Prop
  | [], s, v => s.saved.Holds c s.d v.saved
  | op :: ops, s, v =>
    s.saved.Holds c s.d v.saved ∧
    match exec c env op s with
    | .ok r t =>
      (v.step op).1 = .ok r ∧ (∀ b, others b → t.d b = s.d b) ∧ Follows others ops t (v.step op).2
    | .error e t =>
      (∀ b, others b → t.d b = s.d b) ∧
        ((v.step op).1 = .error e ∧ Follows others ops t (v.step op).2 ∨
          (Blamed c others env s t ∨ Full c others t) ∧ t.saved = s.saved ∧
            t.saved.Holds c t.d v.saved)

variable {c env} {others : Nat → Prop} {s t : State} {v : View} {op : Op} {data : List UInt8}
  {sdata : List UInt8} {pos npos : Nat}

theorem After.rep (h : Rep c others s v) (ha : After c others v.saved data pos s t) :
    Rep c others t { v with data, pos } :=
  ⟨ha.inv, ha.pos, ha.append.trans h.append, ha.removed.trans h.removed⟩

theorem Rep.target (h : Rep c others s v) (off : Int) (whence : Whence) :
    s.file.npos off whence = v.target off whence := by
  cases whence <;> simp only [File.npos, View.target, h.pos, h.inv.rawsize]

theorem exec_wp (hhonest : env.Honest c others) (h : Rep c others s v)
    (hallowed : Allowed c env s op) :
    Wp (exec c env op) s
      (fun r t => (v.step op).1 = .ok r ∧ Rep c others t (v.step op).2 ∧
        ∀ b, others b → t.d b = s.d b)
      (fun e t => ((v.step op).1 = .error e ∧ Rep c others t (v.step op).2 ∧
        ∀ b, others b → t.d b = s.d b) ∨ Failed c others env s v.saved t) := by
  cases op with
  | read size =>
    refine wp_map.2 ((lfsFileRawread_wp hhonest h.inv size).mono ?_ fun e t ht => .inr ht)
    rintro out t ⟨hout, ha⟩
    rw [h.pos] at hout ha
    subst hout
    exact ⟨rfl, ha.rep h, ha.safe.rest⟩
  | write new =>
    have hp : writePos v.append v.data v.pos = writePos s.file.append v.data s.file.pos := by
      rw [h.pos, h.append]
    refine wp_map.2 ((lfsFileRawwrite_wp hhonest h.inv hallowed hp).mono ?_ ?_)
    · rintro n t ⟨hmax, rfl, ha⟩
      have hstep : v.step (.write new) = (.ok (.num new.length), { v with
          data := overlay (padTo v.data (writePos v.append v.data v.pos))
            (writePos v.append v.data v.pos) new
          pos := writePos v.append v.data v.pos + new.length }) := if_neg (by omega)
      rw [hstep]
      exact ⟨rfl, ha.rep h, ha.safe.rest⟩
    · rintro e t (⟨hbig, rfl, ha⟩ | ⟨-, hf⟩)
      · have hstep : v.step (.write new) =
            (.error .fbig, { v with pos := writePos v.append v.data v.pos }) := if_pos hbig
        rw [hstep]
        exact .inl ⟨rfl, ha.rep h, ha.safe.rest⟩
      · exact .inr hf
  | seek off whence =>
    have htarget := h.target off whence
    refine wp_map.2 ((lfsFileRawseek_wp hhonest h.inv hallowed).mono ?_ ?_)
    · rintro n t ⟨hn, ha⟩
      rw [htarget] at hn
      simp only [View.step, hn]
      exact ⟨trivial, ha.rep h, ha.safe.rest⟩
    · rintro e t (⟨hn, rfl⟩ | ⟨-, hf⟩)
      · rw [htarget] at hn
        simp only [View.step, hn]
        exact .inl ⟨trivial, h, fun _ _ => trivial⟩
      · exact .inr hf
  | truncate size =>
    refine wp_map.2 ((lfsFileRawtruncate_wp hhonest h.inv hallowed).mono ?_ ?_)
    · rintro ⟨⟩ t ⟨hsize, ha⟩
      have hstep : v.step (.truncate size) = (.ok .done, { v with data := resize v.data size }) :=
        if_neg (by omega)
      rw [h.pos] at ha
      rw [hstep]
      exact ⟨rfl, ha.rep h, ha.safe.rest⟩
    · rintro e t (⟨hbig, rfl, rfl⟩ | ⟨-, hf⟩)
      · have hstep : v.step (.truncate size) = (.error .inval, v) := if_pos hbig
        rw [hstep]
        exact .inl ⟨rfl, h, fun _ _ => rfl⟩
      · exact .inr hf
  | sync =>
    refine wp_map.2 ((lfsFileRawsync_wp hhonest h.inv).mono ?_ fun e t ht => .inr ht)
    rintro ⟨⟩ t ⟨hinv, hrest, hpos, happend, hremoved⟩
    rw [h.removed] at hinv hremoved
    simp only [View.step]
    refine ⟨trivial, ?_, hrest⟩
    split at hinv
    · next hr =>
      rw [if_pos hr]
      exact ⟨hinv, hpos.trans h.pos, happend.trans h.append, hremoved⟩
    · next hr =>
      rw [if_neg hr]
      exact ⟨hinv, hpos.trans h.pos, happend.trans h.append, hremoved⟩

theorem follows_of_rep (hhonest : env.Honest c others) {ops : List Op} (h : Rep c others s v)
    (hallowed : Meets (next c env) (Allowed c env) s ops) : Follows c env others ops s v := by
  induction ops generalizing s v with
  | nil => exact h.inv.saved
  | cons op ops ih =>
    obtain ⟨hop, hops⟩ := hallowed
    have hstep := exec_wp hhonest h hop
    refine ⟨h.inv.saved, ?_⟩
    unfold next at hops
    unfold Wp at hstep
    split at hstep
    · next r t hr =>
      rw [hr] at hops ⊢
      obtain ⟨hres, hrep, hrest⟩ := hstep
      exact ⟨hres, hrest, ih hrep hops⟩
    · next e t hr =>
      rw [hr] at hops ⊢
      rcases hstep with ⟨hres, hrep, hrest⟩ | hf
      · exact ⟨hrest, .inl ⟨hres, ih hrep hops⟩⟩
      · exact ⟨hf.rest, .inr ⟨hf.cause, hf.same, hf.saved⟩⟩

/-! ## From the start -/

/-- `lfs_file_rawopencfg` shows what is committed, unless it is to be dropped. -/
theorem opened_rep {saved : Saved} {d : Blocks} {sdata : List UInt8}
    {past : List (Ask × State)} (h : saved.Holds c d sdata) (hmax : sdata.length ≤ fileMax)
    (trunc append : Bool) :
    Rep c others ⟨d, saved.opened trunc append, saved, past⟩
      ⟨if trunc then [] else sdata, 0, sdata, append, false⟩ where
  inv := by
    have hempty : InlineFile c [] (Saved.opened (.inl []) true append) :=
      ⟨rfl, rfl, Nat.zero_le _, rfl, fun hr => absurd hr Bool.false_ne_true,
        fun hw => absurd hw Bool.false_ne_true⟩
    refine ⟨h, ?_, ?_, ?_, ?_, fun _ hw => ?_, fun hclean _ => ?_⟩
    · cases saved with
      | inl data =>
        obtain ⟨rfl, hsize⟩ := h
        cases trunc with
        | true => exact .inl hempty
        | false =>
          have hread : Memory.read (Memory.write (fun _ => 0xff) 0 data) 0 data.length = data :=
            Memory.read_write
          exact .inl ⟨rfl, rfl, hsize, hread, fun hr => absurd hr Bool.false_ne_true,
            fun hw => absurd hw Bool.false_ne_true⟩
      | ctz head size =>
        cases trunc with
        | true => exact .inl hempty
        | false =>
          exact .inr (.inl ⟨rfl, rfl, h.1, h.2, fun hr => absurd hr Bool.false_ne_true⟩)
    · cases saved <;> cases trunc <;> exact Nat.zero_le _
    · cases trunc with
      | true => exact Nat.zero_le _
      | false => exact hmax
    · cases saved <;> cases trunc <;> rfl
    · cases saved <;> cases trunc <;> exact absurd hw Bool.false_ne_true
    · cases trunc with
      | true => cases saved <;> exact absurd hclean.symm Bool.false_ne_true
      | false => rfl
  pos := by cases saved <;> cases trunc <;> rfl
  append := by cases saved <;> cases trunc <;> rfl
  removed := by cases saved <;> cases trunc <;> rfl

/-- A file that is opened and then read, written, seeked in, cut and synced in any order behaves
as a list of bytes with a position. An operation that does not is one that failed, and in the midst
of it the device or the allocator did, or every block is in use. What was synced last is committed
in every state. -/
theorem session_follows (hhonest : env.Honest c others) {saved : Saved} {d : Blocks}
    {sdata : List UInt8} {past : List (Ask × State)} (h : saved.Holds c d sdata)
    (hmax : sdata.length ≤ fileMax) (trunc append : Bool) {ops : List Op}
    (hallowed : Meets (next c env) (Allowed c env)
      ⟨d, saved.opened trunc append, saved, past⟩ ops) :
    Follows c env others ops ⟨d, saved.opened trunc append, saved, past⟩
      ⟨if trunc then [] else sdata, 0, sdata, append, false⟩ :=
  follows_of_rep hhonest (opened_rep h hmax trunc append) hallowed

/-- Block 5 cannot be written, and block 6 fails when the first data is programmed. The second read
fails, too. -/
def stumbling : Env where
  ask s :=
    if s.saved.isInline ∧ s.file.head = blockInline then
      if s.file.writing = false then [.bad 5 fun _ => 0, .good 6 fun _ => 0xff]
      else if s.file.block = 6 ∧ s.file.pos = 0 then [.good 7 fun _ => 0xff]
      else []
    else []
  prog s := if s.past.length = 1 then some .corrupt else none
  flush _ := none
  commit _ := none
  find _ := none
  read s _ := if s.past.length = 7 then some .io else none
  cached _ _ := true

theorem TailUses.of_zero {d : Blocks} {block off b : Nat} (h : TailUses c d block off 0 b) :
    b = block := by
  obtain ⟨blocks, n, htail, rfl, -, i, hi, rfl⟩ := h
  have hstart := htail.start
  have hn : n = 0 := by
    by_contra hne
    have hless := blockStart_lt_succ (c := c) (i := 0) (by omega)
    have hmono := blockStart_mono (c := c) (show 0 + 1 ≤ n by omega)
    omega
  subst hn
  rw [Nat.le_zero.1 hi]

theorem stumbling_honest : stumbling.Honest smallCfg (· = 1) := by
  intro s b hb
  simp only [stumbling] at hb
  split at hb
  · next hcond =>
    have hkept : ∀ b, b ≠ 1 → ¬Kept smallCfg (· = 1) s b := by
      rintro b hne (hb | hb | hb)
      · exact hne hb
      · cases hs : s.saved with
        | inl data => rw [hs] at hb; exact hb
        | ctz head size => rw [hs] at hcond; exact absurd hcond.1 (by simp [Saved.isInline])
      · rw [hcond.2] at hb
        exact not_uses_inline hb
    split at hb
    · next hidle =>
      have hb : b = 5 ∨ b = 6 := by simpa [handedOut, Alloc.block?] using hb
      refine ⟨show b < 8 by omega, ?_⟩
      rintro (hk | ⟨hw, -⟩)
      · exact hkept b (by omega) hk
      · exact absurd (hidle.symm.trans hw) (by decide)
    · split at hb
      · next hplace =>
        obtain rfl : b = 7 := by simpa [handedOut, Alloc.block?] using hb
        refine ⟨by decide, ?_⟩
        rintro (hk | ⟨-, huse⟩)
        · exact hkept 7 (by decide) hk
        · rw [hplace.1, hplace.2] at huse
          exact absurd huse.of_zero (by decide)
      · simp [handedOut] at hb
  · simp [handedOut] at hb

def stumblingStart : State :=
  ⟨fun _ _ => 0, Saved.opened (.inl [7]) true false, .inl [7], []⟩

/-- The data comes to lie in block 7, and the last read fails. -/
theorem session_follows_stumbling :
    let ops := [.write (List.replicate 20 3), .sync, .seek (-2) .end, .read 5, .seek 1 .set]
    Follows smallCfg stumbling (· = 1) (ops ++ [.read 1]) stumblingStart
        ⟨[], 0, [7], false, false⟩ ∧
      (runs (next smallCfg stumbling) stumblingStart ops).file.head = 7 ∧
      ∃ t, exec smallCfg stumbling (.read 1) (runs (next smallCfg stumbling) stumblingStart ops) =
        .error .io t := by
  have hholds : Saved.Holds smallCfg (fun _ _ => 0) [7] (.inl [7]) := ⟨rfl, by decide⟩
  refine ⟨session_follows stumbling_honest hholds (by decide) true false ?_, rfl, _, rfl⟩
  exact ⟨show 20 < 2 ^ 31 by decide, trivial, fun _ _ hs => absurd hs.1 (by decide), trivial,
    fun _ _ hs => absurd hs.1 (by decide), trivial, trivial⟩

/-! ## At a seam -/

theorem readByte_wp {d : Blocks} {f : File} {fault : File → Option Err} (hinl : f.inl = false)
    (hreading : f.reading = true) (hpos : f.pos < f.size) (hblock : f.block < c.blockCount)
    (hoff : f.off < c.blockSize) :
    Wp (lfsFileFlushedread c d fault 1) f (fun out _ => out = [d f.block f.off])
      (fun e g => fault g = some e) := by
  have hone : min 1 (f.size - f.pos) = 1 := by omega
  have hpiece : min 1 (c.blockSize - f.off) = 1 := by omega
  have hskip : ¬(f.reading = false ∨ f.off = c.blockSize) := by
    rw [hreading]
    exact fun hor => hor.elim (fun ht => absurd ht.symm Bool.false_ne_true) (Nat.ne_of_lt hoff)
  have hread : d.read c f.block f.off 1 = .ok [d f.block f.off] :=
    Blocks.read_eq hblock (by omega)
  unfold lfsFileFlushedread
  simp only [wp_bind, wp_get]
  rw [if_neg (Nat.not_le.2 hpos), hone]
  unfold readLoop readBlock readPiece
  simp only [if_neg (Nat.one_ne_zero), wp_bind, wp_get]
  rw [if_neg hskip]
  simp only [wp_pure, hpiece, hinl, Bool.false_eq_true, if_false, hread, wp_faulty, wp_set]
  exact ⟨fun _ => rfl, fun _ he => he⟩

/-- What `lfs_file_rawseek` makes of a file that was read up to the end of a block: a seek to a
place of the next block is found in the cache, and what is read there, if the device serves the
read, is from the block before. -/
theorem seek_at_seam (h : Inv c others sdata data s) (hidle : s.file.writing = false)
    (hseam : s.file.AtSeam c) (hmax : npos ≤ fileMax) (hhit : seekHit c env s npos = true)
    (hne : s.file.pos ≠ npos) (hlt : npos < data.length) :
    ∃ i block, At c s.d s.file.head data i block ∧ s.file.pos = blockStart c (i + 1) ∧
      (lfsCtzIndex c npos).1 = i + 1 ∧
      Wp (do
          let _ ← lfsFileRawseek c env npos .set
          lfsFileRawread c env 1) s
        (fun out _ => out = [s.d block (lfsCtzIndex c npos).2])
        (fun _ t => Blamed c others env s t) := by
  obtain ⟨hreading, hinl, hless, hend⟩ := hseam
  have hfile := fileMax_lt
  have hreader : Reader c s.d data s.file := by
    rcases h.mode with hi | ⟨-, hr⟩ | ⟨hwriting, -⟩
    · exact absurd (hinl.symm.trans hi.inl) (by decide)
    · exact hr
    · exact absurd (hidle.symm.trans hwriting) (by decide)
  have hplen : s.file.pos < 2 ^ 32 := by
    have hp := h.pos_le
    omega
  obtain ⟨i, hat, hstart⟩ : ∃ i, At c s.d s.file.head data i s.file.block ∧
      s.file.pos = blockStart c (i + 1) := by
    rcases hreader.cursor hreading with ⟨-, hoff⟩ | ⟨i, hat, hstart, -⟩ | hpast
    · have hlt := lfsCtzIndex_lt c hplen
      rw [← hoff hless, hend] at hlt
      exact absurd hlt (Nat.lt_irrefl _)
    · exact ⟨i, hat, hstart⟩
    · obtain ⟨-, hlo, -⟩ := lfsCtzIndex_spec c hplen
      omega
  obtain ⟨hbound, hlo, hhi, -⟩ := lfsCtzIndex_spec c hplen
  rw [seekHit, decide_eq_true_eq] at hhit
  have hindex : (lfsCtzIndex c s.file.pos).1 = i + 1 := by
    have hnext : i + 1 ≤ (lfsCtzIndex c s.file.pos).1 := index_le_of_lt hstart.ge hhi
    have hi := index_lt (i := i + 1) (by omega) hstart.ge hplen
    exact Nat.le_antisymm
      (index_le_of_lt hlo (hstart ▸ blockStart_lt_succ (by omega))) hnext
  have hblock : s.file.block < c.blockCount := by
    obtain ⟨blocks, n, hh, -, -, hin, hb⟩ := hat
    exact hb ▸ hh.inside i hin
  refine ⟨i, s.file.block, hat, hstart, hhit.1.symm.trans hindex, ?_⟩
  unfold lfsFileRawseek lfsFileRawread
  simp only [wp_bind, wp_get, npos_set hmax, wp_ofExcept_ok]
  rw [if_neg hne, if_pos ⟨hidle, by rw [seekHit, decide_eq_true_eq]; exact hhit⟩]
  simp only [wp_bind, wp_setFile, wp_getFile, wp_pure]
  rw [if_neg (by rw [hidle]; exact Bool.false_ne_true), wp_onFile]
  refine (readByte_wp (f := { s.file with pos := npos, off := (lfsCtzIndex c npos).2 }) hinl
    hreading (hreader.size ▸ hlt) hblock (lfsCtzIndex_lt c (by omega))).mono
    (fun _ _ hout => hout) fun e g he => ?_
  have hfails : env.Fails c others
      { s with file := { s.file with pos := npos, off := (lfsCtzIndex c npos).2 } }
      (.read (some g)) := ⟨g, rfl, he.trans_ne (Option.some_ne_none e)⟩
  exact .of_asked hfails (List.suffix_refl _) rfl

/-- The file of two blocks, read up to the end of the first with the last of it in the cache. -/
def seamState : State where
  d := pairBlocks
  file :=
    { Saved.opened (.ctz 4 8096) false false with
      reading := true, pos := 4096, block := 3, off := 4096 }
  saved := .ctz 4 8096
  past := []

def seamEnv : Env where
  ask _ := []
  prog _ := none
  flush _ := none
  commit _ := none
  find _ := none
  read _ _ := none
  cached _ k := 3584 ≤ k ∧ k < 4096

theorem seamState_inv : Inv (lfsCfg 0x8000) (fun _ => False) pairData pairData seamState := by
  have hlen := length_pairData
  have hat : At (lfsCfg 0x8000) seamState.d 4 pairData 0 3 :=
    ⟨_, 1, holds_pairData, begun_pairData, rfl, Nat.zero_le _, rfl⟩
  have hreader : Reader (lfsCfg 0x8000) seamState.d pairData seamState.file :=
    ⟨rfl, hlen.symm, .inr stored_pairData,
      fun _ => .inr (.inl ⟨0, hat, by decide, by decide, rfl⟩)⟩
  exact ⟨⟨hlen.symm, .inr stored_pairData⟩, .inr (.inl ⟨rfl, hreader⟩), by decide,
    by rw [hlen]; decide, rfl, fun _ hw => absurd hw Bool.false_ne_true, fun _ _ => rfl⟩

/-- The byte at 7692 is a 2, and is read as the byte of block 3 at the same offset, a 1. -/
theorem seek_at_seam_second :
    pairData[7692]? = some 2 ∧ ∃ block, At (lfsCfg 0x8000) seamState.d 4 pairData 0 block ∧
      seamState.d block 3600 = 1 ∧
      Wp (do
          let _ ← lfsFileRawseek (lfsCfg 0x8000) seamEnv (7692 : Nat) .set
          lfsFileRawread (lfsCfg 0x8000) seamEnv 1) seamState
        (fun out _ => out = [seamState.d block 3600])
        (fun _ t => Blamed (lfsCfg 0x8000) (fun _ => False) seamEnv seamState t) := by
  obtain ⟨i, block, hat, -, hi, hread⟩ :=
    seek_at_seam seamState_inv rfl (show seamState.file.AtSeam (lfsCfg 0x8000) by decide)
      (show 7692 ≤ fileMax by decide) (show seekHit _ seamEnv _ _ = true by decide) (by decide)
      (by rw [length_pairData]; decide)
  obtain rfl : i = 0 := by simpa using hi.symm.trans (show _ = 1 by decide)
  have hbyte : pairData[7692]? = some 2 := by
    rw [List.getElem?_eq_getElem (by rw [length_pairData]; decide), getElem_pairData]
    rfl
  refine ⟨hbyte, block, hat, ?_, hread⟩
  obtain ⟨blocks, n, hh, -, hlast, -, rfl⟩ := hat
  have hn : n ≠ 0 := by
    rintro rfl
    have hstop := hh.stop
    have hfirst : blockStart (lfsCfg 0x8000) (0 + 1) = 4096 := by decide
    rw [length_pairData, hfirst] at hstop
    omega
  have hne : blocks 0 ≠ 4 := fun heq =>
    hh.distinct n (Nat.le_refl n) 0 (by omega) (heq.trans hlast.symm)
  exact if_neg hne

end Bl616cl.Lfs
