import Bl616cl.Lfs.Reader

/-!
# littlefs: writing to a list of blocks

What is written goes to blocks that nothing else uses: neither the rest of the file system, nor
the file as it was committed, nor the list that it was last flushed to.
-/

namespace Bl616cl.Lfs

open Bl616cl.Lib

/-! ## Blocks in use -/

def Saved.Uses (c : Config) (d : Blocks) : Saved → Nat → Prop
  | .inl _, _ => False
  | .ctz head size, b => Lfs.Uses c d head size b

/-- What is committed is this data. -/
def Saved.Holds (c : Config) (d : Blocks) (data : List UInt8) : Saved → Prop
  | .inl data' => data' = data ∧ data.length ≤ inlineMax c
  | .ctz head size => size = data.length ∧ (data = [] ∨ Stored c d head data)

/-- What a file was last flushed to, unless it had no blocks. -/
def OldList (c : Config) (d : Blocks) (head : Nat) (old : List UInt8) : Prop :=
  head = blockInline ∨ old = [] ∨ Stored c d head old

section
variable (c : Config) (others : Nat → Prop) (s : State)

/-- A block that the file may not write to. `others` are those of the rest of the file system. -/
def Kept (b : Nat) : Prop :=
  others b ∨ s.saved.Uses c s.d b ∨ Uses c s.d s.file.head s.file.size b

def InUse (b : Nat) : Prop :=
  Kept c others s b ∨
    s.file.writing = true ∧ TailUses c s.d s.file.block s.file.off s.file.pos b

def Full : Prop := ∀ b < c.blockCount, InUse c others s b

/-- `lfs_alloc` delivers blocks that are there and not in use. -/
def Env.Honest (env : Env) : Prop :=
  ∀ s, ∀ b ∈ handedOut (env.ask s), b < c.blockCount ∧ ¬InUse c others s b

end

/-- What was committed is there, and the rest of the file system as it was. -/
structure Safe (c : Config) (others : Nat → Prop) (s₀ : State) (sdata : List UInt8) (s : State) :
    Prop where
  same : s.saved = s₀.saved
  saved : s.saved.Holds c s.d sdata
  rest : ∀ b, others b → s.d b = s₀.d b
  past : s₀.past <:+ s.past

/-- The device fails, or `lfs_alloc` finds no block that can be written though some are not in
use. -/
def Env.Fails (c : Config) (others : Nat → Prop) (env : Env) (s : State) : Ask → Prop
  | .alloc => ¬Served (env.ask s) ∧ ¬Full c others s
  | .prog => env.prog s ≠ none
  | .flush => env.flush s ≠ none
  | .commit => env.commit s ≠ none
  | .find => env.find s ≠ none
  | .read failed => ∃ f, failed = some f ∧ env.read s f ≠ none

/-- From `s₀` to `s` that has happened. -/
def Blamed (c : Config) (others : Nat → Prop) (env : Env) (s₀ s : State) : Prop :=
  ∃ q u earlier, (q, u) :: earlier <:+ s.past ∧ s₀.past <:+ earlier ∧ env.Fails c others u q

/-- An operation failed for a reason, and has left what was committed. -/
structure Failed (c : Config) (others : Nat → Prop) (env : Env) (s₀ : State) (sdata : List UInt8)
    (s : State) : Prop extends Safe c others s₀ sdata s where
  cause : Blamed c others env s₀ s ∨ Full c others s

/-- The list that the file was last flushed to is as it was, too. -/
structure Base (c : Config) (others : Nat → Prop) (s₀ : State) (sdata old : List UInt8)
    (s : State) : Prop extends Safe c others s₀ sdata s where
  size : s.file.size = old.length
  start : OldList c s₀.d s.file.head old
  kept : ∀ b, Uses c s₀.d s.file.head old.length b → s.d b = s₀.d b

/-- The file is being written to in a list of blocks, and holds `cur` up to its position. -/
structure Writer (c : Config) (others : Nat → Prop) (s₀ : State) (sdata old cur : List UInt8)
    (s : State) : Prop extends Base c others s₀ sdata old s where
  inl : s.file.inl = false
  pos : s.file.pos = cur.length
  idle : s.file.writing = false →
    (old = [] ∨ Stored c s.d s.file.head old) ∧ cur.length ≤ old.length ∧
      cur = old.take cur.length
  busy : s.file.writing = true →
    Tail c s.d s.file.block s.file.off cur ∧
      (cur ≠ [] → Written c s.d s.file.block s.file.off cur) ∧ ¬Kept c others s s.file.block

/-- The same file, at another place maybe. -/
structure File.Same (f g : File) : Prop where
  reading : g.reading = f.reading
  inl : g.inl = f.inl
  dirty : g.dirty = f.dirty
  errored : g.errored = f.errored
  append : g.append = f.append
  removed : g.removed = f.removed
  head : g.head = f.head
  size : g.size = f.size

/-- The same place, in another block maybe. -/
structure File.Moved (f g : File) : Prop extends File.Same f g where
  writing : g.writing = f.writing
  pos : g.pos = f.pos
  off : g.off = f.off

theorem File.Same.trans {f g h : File} (h₁ : f.Same g) (h₂ : g.Same h) : f.Same h :=
  ⟨h₂.reading.trans h₁.reading, h₂.inl.trans h₁.inl, h₂.dirty.trans h₁.dirty,
    h₂.errored.trans h₁.errored, h₂.append.trans h₁.append, h₂.removed.trans h₁.removed,
    h₂.head.trans h₁.head, h₂.size.trans h₁.size⟩

theorem File.Moved.trans {f g h : File} (h₁ : f.Moved g) (h₂ : g.Moved h) : f.Moved h :=
  ⟨h₁.toSame.trans h₂.toSame, h₂.writing.trans h₁.writing, h₂.pos.trans h₁.pos,
    h₂.off.trans h₁.off⟩

variable {c : Config} {others : Nat → Prop} {env : Env} {s s₀ t : State} {d e : Blocks}
  {sdata old cur data : List UInt8} {saved : Saved} {head block off nblock b : Nat} {f : File}
  {allocs : List Alloc}

theorem Blamed.of_asked {q : Ask} (h : env.Fails c others s q) (hfrom : s₀.past <:+ s.past)
    (hpast : t.past = (q, s) :: s.past) : Blamed c others env s₀ t :=
  ⟨q, s, s.past, hpast ▸ List.suffix_refl _, hfrom, h⟩

theorem Blamed.later (h : Blamed c others env s₀ s) (hpast : s.past <:+ t.past) :
    Blamed c others env s₀ t :=
  let ⟨q, u, earlier, hs, hfrom, hq⟩ := h
  ⟨q, u, earlier, hs.trans hpast, hfrom, hq⟩

theorem Blamed.earlier (h : Blamed c others env s t) (hpast : s₀.past <:+ s.past) :
    Blamed c others env s₀ t :=
  let ⟨q, u, earlier, hs, hfrom, hq⟩ := h
  ⟨q, u, earlier, hs, hpast.trans hfrom, hq⟩

theorem OldList.congr (h : OldList c d head old)
    (hsame : ∀ b, Uses c d head old.length b → e b = d b) :
    OldList c e head old ∧ ∀ b, Uses c e head old.length b → Uses c d head old.length b := by
  rcases h with rfl | rfl | h
  · exact ⟨.inl rfl, fun b hb => absurd hb not_uses_inline⟩
  · exact ⟨.inr (.inl rfl), fun b hb => absurd hb not_uses_zero⟩
  · exact ⟨.inr (.inr (h.congr hsame)), fun b hb => h.uses_congr hsame hb⟩

theorem Saved.Holds.congr (h : saved.Holds c d sdata)
    (hsame : ∀ b, saved.Uses c d b → e b = d b) :
    saved.Holds c e sdata ∧ ∀ b, saved.Uses c e b → saved.Uses c d b := by
  cases saved with
  | inl data => exact ⟨h, fun b hb => hb⟩
  | ctz head size =>
    obtain ⟨rfl, hdata⟩ := h
    rcases hdata with rfl | hdata
    · exact ⟨⟨rfl, .inl rfl⟩, fun b hb => absurd hb not_uses_zero⟩
    · exact ⟨⟨rfl, .inr (hdata.congr hsame)⟩, fun b hb => hdata.uses_congr hsame hb⟩

theorem Base.list (h : Base c others s₀ sdata old s) : OldList c s.d s.file.head old :=
  (h.start.congr h.kept).1

/-- Writes to other blocks than those keep the data and the blocks. -/
theorem Base.congr (h : Base c others s₀ sdata old s)
    (hsame : ∀ b, Kept c others s b → t.d b = s.d b) (hsaved : t.saved = s.saved)
    (hhead : t.file.head = s.file.head) (hsize : t.file.size = s.file.size)
    (hpast : s.past <:+ t.past) :
    Base c others s₀ sdata old t ∧ ∀ b, Kept c others t b → Kept c others s b := by
  obtain ⟨hsavedt, husest⟩ := h.saved.congr (e := t.d) fun b hb => hsame b (.inr (.inl hb))
  obtain ⟨hold, huses⟩ := h.list.congr (e := t.d) fun b hb =>
    hsame b (.inr (.inr (h.size ▸ hb)))
  refine ⟨⟨⟨hsaved.trans h.same, hsaved ▸ hsavedt, fun b hb => ?_, h.past.trans hpast⟩,
    hsize.trans h.size, hhead ▸ h.start, fun b hb => ?_⟩, fun b hb => ?_⟩
  · rw [hsame b (.inl hb), h.rest b hb]
  · rw [hhead] at hb
    rw [hsame b (.inr (.inr (h.size ▸ hb.congr h.kept))), h.kept b hb]
  · rcases hb with hb | hb | hb
    · exact .inl hb
    · exact .inr (.inl (husest b (hsaved ▸ hb)))
    · rw [hhead, hsize, h.size] at hb
      exact .inr (.inr (h.size ▸ huses b hb))

/-- Between two such states the list has not changed. -/
theorem Base.agree (h : Base c others s₀ sdata old s) (h' : Base c others s₀ sdata old t)
    (hhead : t.file.head = s.file.head) (hb : Uses c s.d s.file.head old.length b) :
    t.d b = s.d b := by
  have hstart := (h.start.congr h.kept).2 b hb
  rw [h.kept b hstart, h'.kept b (hhead ▸ hstart)]

/-! ## Relocation -/

theorem relocateLoop_frame (hb : b ∉ handedOut allocs) : (relocateLoop f d allocs).1 b = d b := by
  induction allocs generalizing d with
  | nil => rfl
  | cons a more ih =>
    cases a with
    | fails e => rfl
    | bad block left =>
      obtain ⟨hne, hmore⟩ : b ≠ block ∧ b ∉ handedOut more := by simpa using hb
      rw [relocateLoop, ih hmore, Blocks.erase_of_ne hne]
    | good nblock left =>
      obtain ⟨hne, -⟩ : b ≠ nblock ∧ b ∉ handedOut more := by simpa using hb
      exact (Blocks.prog_of_ne hne).trans (Blocks.erase_of_ne hne)

theorem relocateLoop_ok (hres : (relocateLoop f d allocs).2 = .ok nblock)
    (hfrom : f.inl = true ∨ f.block ∉ handedOut allocs) :
    nblock ∈ handedOut allocs ∧ ∀ k < f.off,
      (relocateLoop f d allocs).1 nblock k = (if f.inl then f.buffer else d f.block) k := by
  induction allocs generalizing d with
  | nil => simp [relocateLoop] at hres
  | cons a more ih =>
    cases a with
    | fails e => simp [relocateLoop] at hres
    | bad block left =>
      obtain ⟨hmem, hcopy⟩ := ih hres (hfrom.imp_right fun h => by simp_all)
      refine ⟨List.mem_cons_of_mem _ hmem, fun k hk => (hcopy k hk).trans ?_⟩
      rcases hfrom with hinl | hne
      · simp [hinl]
      · rw [Blocks.erase_of_ne (by simp_all)]
    | good block left =>
      obtain rfl : block = nblock := by simpa [relocateLoop] using hres
      refine ⟨List.mem_cons_self, fun k hk => ?_⟩
      rw [relocateLoop]
      dsimp only
      rw [Blocks.prog_self, File.copied, Memory.write_read (Nat.zero_le k) (by omega)]
      rcases hfrom with hinl | hne
      · simp [hinl]
      · rw [Blocks.erase_of_ne (by simp_all)]

theorem relocateLoop_served (h : Served allocs) :
    ∃ nblock, (relocateLoop f d allocs).2 = .ok nblock := by
  induction allocs generalizing d with
  | nil => exact h.elim
  | cons a more ih =>
    cases a with
    | fails e => exact h.elim
    | bad block left => exact ih h
    | good block left => exact ⟨block, rfl⟩

@[simp] theorem wp_getFile {Q : File → State → Prop} {E : Err → State → Prop} :
    Wp getFile s Q E ↔ Q s.file s := Iff.rfl

@[simp] theorem wp_setFile {g : File → File} {Q : Unit → State → Prop}
    {E : Err → State → Prop} : Wp (setFile g) s Q E ↔ Q () { s with file := g s.file } := Iff.rfl

/-- What relocation does to the device, and where the file is then. -/
theorem wp_lfsFileRelocate {Q : Unit → State → Prop} {E : Err → State → Prop}
    (hok : ∀ d' nblock, relocateLoop s.file s.d (env.ask s) = (d', .ok nblock) →
      Q () { s.asked .alloc with
        d := d', file := { s.file with block := nblock, writing := true } })
    (herr : ∀ d' e, relocateLoop s.file s.d (env.ask s) = (d', .error e) →
      E e { s.asked .alloc with d := d' }) :
    Wp (lfsFileRelocate env) s Q E := by
  unfold lfsFileRelocate
  simp only [wp_bind, wp_get, wp_set]
  rcases hr : relocateLoop s.file s.d (env.ask s) with ⟨d', e | nblock⟩
  · exact herr d' e hr
  · exact hok d' nblock hr

/-- Relocation keeps all that is in use. -/
theorem relocateLoop_kept (hhonest : env.Honest c others) (hb : InUse c others s b) :
    (relocateLoop f s.d (env.ask s)).1 b = s.d b :=
  relocateLoop_frame fun hmem => (hhonest s b hmem).2 hb

/-- Where no block is delivered, there is none, and the device is as it was. -/
theorem cause_of_unserved (hhonest : env.Honest c others) (hpast : s₀.past <:+ s.past)
    (h : ¬Served (env.ask s)) (hframe : ∀ b, b ∉ handedOut (env.ask s) → d b = s.d b) :
    Blamed c others env s₀ { s.asked .alloc with d } ∨
      Full c others { s.asked .alloc with d } := by
  by_cases hfull : Full c others s
  · right
    have hnone : ∀ b, b ∉ handedOut (env.ask s) := fun b hb =>
      (hhonest s b hb).2 (hfull b (hhonest s b hb).1)
    obtain rfl : d = s.d := funext fun b => hframe b (hnone b)
    exact hfull
  · exact .inl (.of_asked (q := .alloc) ⟨h, hfull⟩ hpast rfl)

theorem relocate_tail (hhonest : env.Honest c others) (h : Base c others s₀ sdata old s)
    (hinl : s.file.inl = false) (hwriting : s.file.writing = true)
    (htail : Tail c s.d s.file.block s.file.off cur) (hpos : s.file.pos = cur.length) :
    Wp (lfsFileRelocate env) s
      (fun _ t => Base c others s₀ sdata old t ∧ Tail c t.d t.file.block t.file.off cur ∧
        (Written c s.d s.file.block s.file.off cur →
          Written c t.d t.file.block t.file.off cur) ∧
        ¬Kept c others t t.file.block ∧ s.file.Moved t.file ∧ s.past <:+ t.past)
      (fun _ t => Failed c others env s₀ sdata t) := by
  refine wp_lfsFileRelocate (fun d' nblock hr => ?_) fun d' e hr => ?_
  · have hkept : ∀ b, InUse c others s b → d' b = s.d b := fun b hb => by
      have := relocateLoop_kept (f := s.file) hhonest hb
      rwa [hr] at this
    have huses : ∀ b, TailUses c s.d s.file.block s.file.off cur.length b → InUse c others s b :=
      fun b hb => .inr ⟨hwriting, hpos ▸ hb⟩
    have hblock : s.file.block ∉ handedOut (env.ask s) := by
      intro hmem
      obtain ⟨blocks, n, hh, hlast, hoff⟩ := htail
      have hself := TailUses.of_holds hh hlast hoff (Nat.le_refl n)
      rw [hlast] at hself
      exact (hhonest s _ hmem).2 (huses _ hself)
    obtain ⟨hmem, hcopy⟩ := relocateLoop_ok (by rw [hr]) (.inr hblock)
    rw [hr] at hcopy
    obtain ⟨hin, hfree⟩ := hhonest s nblock hmem
    have hfresh : ¬TailUses c s.d s.file.block s.file.off cur.length nblock :=
      fun hb => hfree (huses _ hb)
    have hsame : ∀ b, TailUses c s.d s.file.block s.file.off cur.length b → d' b = s.d b :=
      fun b hb => hkept b (huses b hb)
    have hcopy : ∀ k < s.file.off, d' nblock k = s.d s.file.block k := by simpa [hinl] using hcopy
    obtain ⟨hbase, hless⟩ := h.congr (t :=
      { s.asked .alloc with d := d', file := { s.file with block := nblock, writing := true } })
      (fun b hb => hkept b (.inl hb)) rfl rfl rfl (List.suffix_cons _ _)
    refine ⟨hbase, htail.copy hin hfresh hsame hcopy,
      fun hw => hw.copy hin hfresh hsame hcopy, fun hb => hfree (.inl (hless _ hb)), ?_⟩
    exact ⟨⟨⟨rfl, rfl, rfl, rfl, rfl, rfl, rfl, rfl⟩, hwriting.symm, rfl, rfl⟩,
      List.suffix_cons _ _⟩
  · obtain ⟨hbase, -⟩ := h.congr (t := { s.asked .alloc with d := d' })
      (fun b hb => by
        have := relocateLoop_kept (f := s.file) hhonest (.inl hb)
        rwa [hr] at this) rfl rfl rfl (List.suffix_cons _ _)
    refine ⟨hbase.toSafe, cause_of_unserved hhonest h.past (fun hserved => ?_) fun b hb => ?_⟩
    · obtain ⟨nblock, hok⟩ := relocateLoop_served (f := s.file) (d := s.d) hserved
      rw [hr] at hok
      simp at hok
    · have hframe := relocateLoop_frame (f := s.file) (d := s.d) hb
      rwa [hr] at hframe

/-! ## Programming -/

theorem Base.asked (h : Base c others s₀ sdata old s) (q : Ask) :
    Base c others s₀ sdata old (s.asked q) :=
  (h.congr (t := s.asked q) (fun _ _ => rfl) rfl rfl rfl (List.suffix_cons _ _)).1

theorem Writer.asked (h : Writer c others s₀ sdata old cur s) (q : Ask) :
    Writer c others s₀ sdata old cur (s.asked q) :=
  { h with toBase := h.toBase.asked q }

theorem progLoop_tail (hhonest : env.Honest c others) (h : Base c others s₀ sdata old s)
    (hinl : s.file.inl = false) (hwriting : s.file.writing = true)
    (htail : Tail c s.d s.file.block s.file.off cur) (hpos : s.file.pos = cur.length)
    (hblock : ¬Kept c others s s.file.block) (hdata : data ≠ [])
    (hroom : s.file.off + data.length ≤ c.blockSize)
    (hsize : cur.length + data.length < 2 ^ 32) (fuel : Nat)
    (hfuel : 0 < fuel ∨ Blamed c others env s₀ s) :
    Wp (progLoop env data fuel) s
      (fun _ t => Base c others s₀ sdata old t ∧
        Written c t.d t.file.block (t.file.off + data.length) (cur ++ data) ∧
        ¬Kept c others t t.file.block ∧ s.file.Moved t.file)
      (fun _ t => Failed c others env s₀ sdata t) := by
  induction fuel generalizing s with
  | zero => exact ⟨h.toSafe, .inl (hfuel.resolve_left (Nat.lt_irrefl 0))⟩
  | succ fuel ih =>
    have hcause : env.prog s ≠ none → Blamed c others env s₀ (s.asked .prog) :=
      fun hne => .of_asked (q := .prog) hne h.past rfl
    rw [progLoop]
    simp only [wp_bind, wp_get, hinl, Bool.false_eq_true, if_false, wp_set]
    split
    · -- the device takes the data
      obtain ⟨hbase, hless⟩ := h.congr
        (t := { s.asked .prog with d := s.d.prog s.file.block s.file.off data })
        (fun b hb => Blocks.prog_of_ne fun heq => hblock (heq ▸ hb)) rfl rfl rfl
        (List.suffix_cons _ _)
      exact ⟨hbase, htail.prog hdata hroom hsize, fun hb => hblock (hless _ hb),
        ⟨rfl, rfl, rfl, rfl, rfl, rfl, rfl, rfl⟩, rfl, rfl, rfl⟩
    · next hprog =>
      -- the block is bad
      have hblamed := hcause (by rw [hprog]; simp)
      refine wp_bind.2 ((relocate_tail hhonest (h.asked .prog) hinl hwriting htail hpos).mono ?_ ?_)
      · rintro ⟨⟩ t ⟨hbase, htail', -, hblock', hmoved, hlater⟩
        have hoff := hmoved.off
        refine (ih hbase (hmoved.inl.trans hinl) (hmoved.writing.trans hwriting) htail'
          (hmoved.pos.trans hpos) hblock' (hoff ▸ hroom) (.inr (hblamed.later hlater))).mono ?_
          fun e t ht => ht
        rintro ⟨⟩ t' ⟨hbase', hwritten, hblock'', hmoved'⟩
        exact ⟨hbase', hwritten, hblock'', hmoved.trans hmoved'⟩
      · exact fun e t ht => ht
    · next e hne hprog => exact ⟨(h.asked .prog).toSafe, .inl (hcause (by rw [hprog]; simp))⟩

/-! ## New blocks -/

/-- The block that the list is extended from holds what has been written. -/
theorem writeHead_wp (h : Writer c others s₀ sdata old cur s) :
    Wp (writeHead c env) s
      (fun _ t => (cur = [] ∨ Stored c t.d t.file.block cur) ∧
        (∀ b, Uses c t.d t.file.block cur.length b → InUse c others t b) ∧
        t.d = s.d ∧ t.saved = s.saved ∧ s.past <:+ t.past ∧ s.file.Moved t.file)
      (fun _ t => Failed c others env s₀ sdata t) := by
  have hself : s.file.Moved s.file :=
    ⟨⟨rfl, rfl, rfl, rfl, rfl, rfl, rfl, rfl⟩, rfl, rfl, rfl⟩
  unfold writeHead
  simp only [wp_bind, wp_get]
  split
  · next hcond =>
    obtain ⟨hidle, hpos⟩ := hcond
    obtain ⟨hold, hle, hcur⟩ := h.idle hidle
    rw [h.pos] at hpos ⊢
    rcases hold with rfl | hold
    · rw [List.length_nil] at hle
      omega
    · obtain ⟨block, hfind, hat⟩ := hold.find (show cur.length - 1 < old.length by omega)
      have hlen : cur.length - 1 + 1 = cur.length := by omega
      have hstored := (hat.take (show cur.length - 1 < old.length by omega) rfl).stored
      rw [hlen, ← hcur] at hstored
      rw [h.size, hfind]
      simp only [wp_bind, wp_set, wp_faulty, wp_setFile]
      refine ⟨fun _ => ⟨.inr hstored, fun b hb => .inl (.inr (.inr ?_)), rfl, rfl,
        List.suffix_cons _ _, ⟨⟨rfl, rfl, rfl, rfl, rfl, rfl, rfl, rfl⟩, rfl, rfl, rfl⟩⟩,
        fun e he => ⟨(h.toBase.asked .find).toSafe, .inl ?_⟩⟩
      · rw [← hlen] at hb
        exact h.size ▸ hat.uses (show cur.length - 1 < old.length by omega) rfl hb
      · have hfails : env.Fails c others s .find := he.trans_ne (Option.some_ne_none e)
        exact .of_asked hfails h.past rfl
  · next hcond =>
    change _ ∧ _ ∧ s.d = s.d ∧ s.saved = s.saved ∧ s.past <:+ s.past ∧ _
    have hpast := List.suffix_refl s.past
    by_cases hwriting : s.file.writing = true
    · by_cases hcur : cur = []
      · subst hcur
        exact ⟨.inl rfl, fun b hb => absurd hb not_uses_zero, rfl, rfl, hpast, hself⟩
      · have hwritten := (h.busy hwriting).2.1 hcur
        exact ⟨.inr hwritten.stored, fun b hb => .inr ⟨hwriting, h.pos ▸ hwritten.uses hb⟩, rfl,
          rfl, hpast, hself⟩
    · obtain rfl : cur = [] := by
        by_contra hne
        have hlen := List.length_pos_iff.2 hne
        rw [h.pos] at hcond
        simp_all
      exact ⟨.inl rfl, fun b hb => absurd hb not_uses_zero, rfl, rfl, hpast, hself⟩

/-- A block to write to, in use by nothing else. -/
theorem writeExtend_wp (hhonest : env.Honest c others) (h : Base c others s₀ sdata old s)
    (hcur : cur = [] ∨ Stored c s.d s.file.block cur) (hpos : s.file.pos = cur.length)
    (huses : ∀ b, Uses c s.d s.file.block cur.length b → InUse c others s b) :
    Wp (writeExtend c env) s
      (fun _ t => Base c others s₀ sdata old t ∧ Tail c t.d t.file.block t.file.off cur ∧
        t.file.off < c.blockSize ∧ ¬Kept c others t t.file.block ∧ s.file.Same t.file ∧
        t.file.pos = s.file.pos ∧ t.file.writing = true)
      (fun _ t => Failed c others env s₀ sdata t) := by
  unfold writeExtend
  simp only [wp_bind, wp_get, wp_set]
  rw [hpos]
  have hkept : ∀ b, Kept c others s b →
      (lfsCtzExtend c s.file.block cur.length s.d (env.ask s)).1 b = s.d b :=
    fun b hb => lfsCtzExtend_frame fun hmem => (hhonest s b hmem).2 (.inl hb)
  by_cases hserved : Served (env.ask s)
  · obtain ⟨d', nblock, off, hext, hmem, hoff, htail⟩ := Stored.extend hcur
      (fun b hb => (hhonest s b hb).1) (fun b hb hu => (hhonest s b hb).2 (huses b hu)) hserved
    rw [hext] at hkept ⊢
    obtain ⟨hbase, hless⟩ := h.congr (t :=
      { s.asked .alloc with
        d := d', file := { s.file with block := nblock, off := off, writing := true } })
      hkept rfl rfl rfl (List.suffix_cons _ _)
    exact ⟨hbase, htail, hoff, fun hb => (hhonest s nblock hmem).2 (.inl (hless _ hb)),
      ⟨rfl, rfl, rfl, rfl, rfl, rfl, rfl, rfl⟩, hpos, rfl⟩
  · obtain ⟨e, herr⟩ := lfsCtzExtend_unserved c s.d s.file.block cur.length hserved
    rw [herr]
    have hbase := h.congr (t := { s.asked .alloc with
      d := (lfsCtzExtend c s.file.block cur.length s.d (env.ask s)).1 }) hkept rfl rfl rfl
      (List.suffix_cons _ _)
    exact ⟨hbase.1.toSafe,
      cause_of_unserved hhonest h.past hserved fun b hb => lfsCtzExtend_frame hb⟩

theorem writeBlock_wp (hhonest : env.Honest c others) (h : Writer c others s₀ sdata old cur s) :
    Wp (writeBlock c env) s
      (fun _ t => Base c others s₀ sdata old t ∧ Tail c t.d t.file.block t.file.off cur ∧
        t.file.off < c.blockSize ∧ ¬Kept c others t t.file.block ∧ s.file.Same t.file ∧
        t.file.pos = s.file.pos ∧ t.file.writing = true)
      (fun _ t => Failed c others env s₀ sdata t) := by
  unfold writeBlock
  simp only [wp_bind, wp_getFile, h.inl, Bool.false_eq_true, if_false]
  split
  · refine wp_bind.2 ((writeHead_wp h).mono ?_ fun _ _ hf => hf)
    rintro ⟨⟩ t ⟨hcur, huses, hd, hsaved, hpast, hmoved⟩
    have hbase := (h.toBase.congr (t := t) (fun b _ => by rw [hd]) hsaved hmoved.head
      hmoved.size hpast).1
    refine (writeExtend_wp hhonest hbase hcur (hmoved.pos.trans h.pos) huses).mono ?_
      fun e t ht => ht
    rintro ⟨⟩ t' ⟨hbase', htail, hoff, hblock, hsame, hpos, hwriting⟩
    exact ⟨hbase', htail, hoff, hblock, hmoved.toSame.trans hsame, hpos.trans hmoved.pos, hwriting⟩
  · next hcond =>
    obtain ⟨hwriting, hoff⟩ : s.file.writing = true ∧ s.file.off ≠ c.blockSize := by simp_all
    obtain ⟨htail, -, hblock⟩ := h.busy hwriting
    have hle := htail.off_le
    exact ⟨h.toBase, htail, by omega, hblock, ⟨rfl, rfl, rfl, rfl, rfl, rfl, rfl, rfl⟩, rfl,
      hwriting⟩

/-- What follows the end of a block goes to the next. -/
theorem writePiece_wp (hhonest : env.Honest c others) (h : Base c others s₀ sdata old s)
    (hinl : s.file.inl = false) (hwriting : s.file.writing = true)
    (htail : Tail c s.d s.file.block s.file.off cur) (hoff : s.file.off < c.blockSize)
    (hpos : s.file.pos = cur.length) (hblock : ¬Kept c others s s.file.block)
    (hdata : data ≠ []) (hsize : cur.length + data.length < 2 ^ 32) :
    Wp (writePiece c env data) s
      (fun diff t => 0 < diff ∧ Writer c others s₀ sdata old (cur ++ data.take diff) t ∧
        s.file.Same t.file ∧ t.file.writing = true)
      (fun _ t => Failed c others env s₀ sdata t) := by
  have hlen := List.length_pos_iff.2 hdata
  unfold writePiece
  simp only [wp_bind, wp_getFile]
  obtain ⟨diff, hdiff⟩ : ∃ diff, diff = min data.length (c.blockSize - s.file.off) := ⟨_, rfl⟩
  rw [← hdiff]
  have htake : (data.take diff).length = diff := by
    rw [List.length_take]
    omega
  have hne : data.take diff ≠ [] := by
    intro hnil
    rw [hnil, List.length_nil] at htake
    omega
  have hcount : 0 < c.blockCount := Nat.lt_of_le_of_lt (Nat.zero_le _) htail.inside
  refine (progLoop_tail hhonest h hinl hwriting htail hpos hblock hne (by omega) (by omega)
    c.blockCount (.inl hcount)).mono ?_ fun e t ht => ht
  rintro ⟨⟩ t ⟨hbase, hwritten, hblock', hmoved⟩
  simp only [wp_setFile, wp_pure]
  rw [htake] at hwritten
  have hposition : t.file.pos + diff = (cur ++ data.take diff).length := by
    rw [List.length_append, htake, hmoved.pos, hpos]
  obtain ⟨hbase', hless⟩ := hbase.congr
    (t := { t with file := { t.file with pos := t.file.pos + diff, off := t.file.off + diff } })
    (fun b _ => rfl) rfl rfl rfl (List.suffix_refl _)
  refine ⟨by omega, ⟨hbase', hmoved.inl.trans hinl, hposition, fun hidle => ?_,
      fun _ => ⟨hwritten.tail, fun _ => hwritten, fun hb => hblock' (hless _ hb)⟩⟩,
    ⟨hmoved.reading, hmoved.inl, hmoved.dirty, hmoved.errored, hmoved.append, hmoved.removed,
      hmoved.head, hmoved.size⟩, hmoved.writing.trans hwriting⟩
  have hstill := hmoved.writing.trans hwriting
  rw [show t.file.writing = false from hidle] at hstill
  exact absurd hstill (by decide)

theorem writeLoop_wp (hhonest : env.Honest c others) (h : Writer c others s₀ sdata old cur s)
    (hsize : cur.length + data.length < 2 ^ 32) {fuel : Nat} (hfuel : data.length ≤ fuel) :
    Wp (writeLoop c env fuel data) s
      (fun _ t => Writer c others s₀ sdata old (cur ++ data) t ∧ s.file.Same t.file ∧
        (data ≠ [] ∨ s.file.writing = true → t.file.writing = true))
      (fun _ t => Failed c others env s₀ sdata t) := by
  induction fuel generalizing s cur data with
  | zero =>
    obtain rfl : data = [] := List.length_eq_zero_iff.1 (by omega)
    rw [List.append_nil]
    exact ⟨h, ⟨rfl, rfl, rfl, rfl, rfl, rfl, rfl, rfl⟩, fun hw => by simpa using hw⟩
  | succ fuel ih =>
    rw [writeLoop]
    split
    · next hnil =>
      subst hnil
      rw [List.append_nil]
      exact ⟨h, ⟨rfl, rfl, rfl, rfl, rfl, rfl, rfl, rfl⟩, fun hw => by simpa using hw⟩
    · next hdata =>
      refine (writeBlock_wp hhonest h).bind ?_ fun e t ht => ht
      rintro ⟨⟩ t ⟨hbase, htail, hoff, hblock, hsame, hpos, hwriting⟩
      refine (writePiece_wp hhonest hbase (hsame.inl.trans h.inl) hwriting htail hoff
        (hpos.trans h.pos) hblock hdata hsize).bind ?_ fun e t ht => ht
      rintro diff t' ⟨hdiff, hwriter, hsame', hwriting'⟩
      have hsplit : cur.length + data.length =
          (cur ++ data.take diff).length + (data.drop diff).length := by
        simp only [List.length_append, List.length_take, List.length_drop]
        omega
      have hlen := List.length_pos_iff.2 hdata
      refine (ih hwriter (by omega) (by rw [List.length_drop]; omega)).mono ?_ fun e t ht => ht
      rintro ⟨⟩ t'' ⟨hwriter', hsame'', hwriting''⟩
      rw [List.append_assoc, List.take_append_drop] at hwriter'
      exact ⟨hwriter', (hsame.trans hsame').trans hsame'', fun _ => hwriting'' (.inr hwriting')⟩

theorem wp_orErred {α : Type} {x : M α} {Q : α → State → Prop} {E : Err → State → Prop} :
    Wp (orErred x) s Q E ↔
      Wp x s Q fun e t => E e { t with file := { t.file with errored := true } } := by
  unfold Wp orErred
  cases x s <;> rfl

theorem Failed.errored (h : Failed c others env s₀ sdata t) :
    Failed c others env s₀ sdata { t with file := { t.file with errored := true } } :=
  ⟨⟨h.same, h.saved, h.rest, h.past⟩, h.cause⟩

theorem lfsFileFlushedwrite_wp (hhonest : env.Honest c others)
    (h : Writer c others s₀ sdata old cur s) (hsize : cur.length + data.length < 2 ^ 32) :
    Wp (lfsFileFlushedwrite c env data) s
      (fun n t => n = data.length ∧ Writer c others s₀ sdata old (cur ++ data) t ∧
        s.file.Same t.file ∧ (data ≠ [] ∨ s.file.writing = true → t.file.writing = true))
      (fun _ t => Failed c others env s₀ sdata t) := by
  unfold lfsFileFlushedwrite writeOutline
  simp only [wp_orErred, wp_bind, wp_getFile, h.inl, Bool.false_eq_true, false_and, if_false,
    wp_pure]
  exact (writeLoop_wp hhonest h hsize (Nat.le_refl _)).mono (fun _ t ht => ⟨trivial, ht⟩)
    fun e t ht => ht.errored

end Bl616cl.Lfs
