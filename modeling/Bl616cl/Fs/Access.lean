import Bl616cl.Fs.Files

/-!
# Access to open files

`SPIFFSClass::open` chooses the LittleFS flags of a file from the first letter of the mode, and
`openNextFile` opens for reading. `lfs_file_read` asserts that its file was opened for reading and
`lfs_file_write` that it was opened for writing; `File` does not keep the mode.
-/

namespace Bl616cl.Fs

open Bl616cl.Lib Handles

/-! ## Flags -/

def lfsRdonly : BitVec 32 := 1
def lfsWronly : BitVec 32 := 2
def lfsCreat : BitVec 32 := 0x0100
def lfsTrunc : BitVec 32 := 0x0400
def lfsAppend : BitVec 32 := 0x0800

/-- The flags in `open`; the mode is null or the characters before its NUL. -/
def openFlags : Option (List Char) → BitVec 32
  | some ('w' :: _) => lfsWronly ||| lfsCreat ||| lfsTrunc
  | some ('a' :: _) => lfsWronly ||| lfsCreat ||| lfsAppend
  | _ => lfsRdonly

/-- The assertions on the flags of the file. -/
def LfsCall.allowed : LfsCall → BitVec 32 → Bool
  | fileRead, flags => flags &&& lfsRdonly == lfsRdonly
  | fileWrite, flags => flags &&& lfsWronly == lfsWronly
  | fileSeek, _ | fileTell, _ | fileSize, _ | fileSync, _ | dirRead, _ | dirRewind, _ => true

/-! ## How a file was opened -/

/-- By `open`, with its mode, or by `openNextFile`. -/
inductive Opening where
  | path (mode : Option (List Char))
  | listed
  deriving DecidableEq, Repr

/-- The mode asks for writing: it begins with a `w` or an `a`. -/
def writeMode : Option (List Char) → Bool
  | some ('w' :: _) | some ('a' :: _) => true
  | _ => false

/-- A file is there to be written, or else to be read. -/
def Opening.writes : Opening → Bool
  | path mode => writeMode mode
  | listed => false

/-- What the two give to `lfs_file_open`. -/
def Opening.flags : Opening → BitVec 32
  | path mode => openFlags mode
  | listed => lfsRdonly

theorem Opening.allowed_read (o : Opening) : LfsCall.fileRead.allowed o.flags = !o.writes := by
  cases o with
  | path mode =>
    simp only [flags, writes, openFlags, writeMode]
    split <;> decide
  | listed => decide

theorem Opening.allowed_write (o : Opening) : LfsCall.fileWrite.allowed o.flags = o.writes := by
  cases o with
  | path mode =>
    simp only [flags, writes, openFlags, writeMode]
    split <;> decide
  | listed => decide

/-- `peek`, and a `read` that has a buffer. -/
def FileOp.reads : FileOp → Bool
  | read given => given
  | peek _ => true
  | write _ | seek | available | size | position | flush => false

/-- A `write` that has a buffer. -/
def FileOp.writes : FileOp → Bool
  | write given => given
  | read _ | peek _ | seek | available | size | position | flush => false

/-- A file may be read or written as it was opened. -/
def FileOp.fits (o : FileOp) (opening : Opening) : Prop :=
  (o.reads = true → opening.writes = false) ∧ (o.writes = true → opening.writes = true)

instance (o : FileOp) (opening : Opening) : Decidable (o.fits opening) :=
  inferInstanceAs (Decidable (_ ∧ _))

/-- The assertions hold in an operation that fits, and in no other. -/
theorem FileOp.fits_iff (o : FileOp) (opening : Opening) :
    o.fits opening ↔ ∀ c ∈ o.calls, c.allowed opening.flags = true := by
  have hread := opening.allowed_read
  have hwrite := opening.allowed_write
  have hrest : LfsCall.fileSeek.allowed opening.flags = true := rfl
  cases o with
  | write given => cases given <;> simp [fits, reads, writes, calls, hwrite]
  | read given => cases given <;> simp [fits, reads, writes, calls, hread]
  | peek got => cases got <;> simp [fits, reads, writes, calls, hread, hrest]
  | seek | available | size | position | flush =>
    simp [fits, reads, writes, calls, LfsCall.allowed]

/-! ## Steps -/

/-- `flags` are those in the `lfs_file_t`s and `openings` a record of how the files were opened,
both by the number of the `FileImpl`. -/
structure Access where
  fs : Spiffs
  flags : Nat → BitVec 32
  openings : Nat → Opening

/-- `mode` is that of `openPath`. -/
structure AccessLabel where
  label : FsLabel
  mode : Option (List Char)
  deriving DecidableEq, Repr

/-- What a file is opened with. -/
def AccessLabel.opensWith (a : AccessLabel) : BitVec 32 :=
  match a.label with
  | .openPath _ _ => openFlags a.mode
  | _ => lfsRdonly

/-- How the caller opens a file. -/
def AccessLabel.opening (a : AccessLabel) : Opening :=
  match a.label with
  | .openPath _ _ => .path a.mode
  | _ => .listed

theorem AccessLabel.opensWith_eq (a : AccessLabel) : a.opensWith = a.opening.flags := by
  rcases a with ⟨label, mode⟩
  cases label <;> rfl

namespace Access

def start : Access := ⟨Spiffs.start, fun _ => 0, fun _ => .listed⟩

variable (s : Access)

def step (a : AccessLabel) : Access :=
  { fs := s.fs.step a.label
    flags :=
      if (s.fs.step a.label).next = s.fs.next then s.flags
      else Function.update s.flags s.fs.next a.opensWith
    openings :=
      if (s.fs.step a.label).next = s.fs.next then s.openings
      else Function.update s.openings s.fs.next a.opening }

/-! ## The property and its condition -/

/-- The assertions of the LittleFS calls: the handle is open, and for what is done with it. -/
structure Asserted : Prop where
  opened : Valid s.fs.trace
  access : ∀ c h, .used c h ∈ s.fs.trace → c.allowed (s.flags h) = true

/-- A file that can be used is only read if it was opened to be read, and only written if it was
opened to be written. -/
def Fitting (a : AccessLabel) : Prop :=
  match a.label with
  | .op i o => ∀ h ∈ s.fs.implOf i, (s.fs.impls h).opened = true → (s.fs.impls h).isDir = false →
      o.fits (s.openings h)
  | _ => True

/-- The file system stays mounted, at least while files are open. -/
def Quiet (a : AccessLabel) : Prop := s.fs.Quiet a.label

instance (a : AccessLabel) : Decidable (s.Quiet a) :=
  inferInstanceAs (Decidable (s.fs.Quiet a.label))

instance : ∀ a, Decidable (s.Fitting a)
  | ⟨.op i o, _⟩ => inferInstanceAs (Decidable (∀ h ∈ s.fs.implOf i, _ → _ → FileOp.fits o _))
  | ⟨.begin _, _⟩ | ⟨.finish, _⟩ | ⟨.format, _⟩ | ⟨.openPath _ _, _⟩ | ⟨.close _, _⟩
  | ⟨.openNextFile _ _, _⟩ | ⟨.rewindDirectory _, _⟩ | ⟨.copy _, _⟩ | ⟨.assign _ _, _⟩
  | ⟨.destroy _, _⟩ => inferInstanceAs (Decidable True)

structure Inv : Prop where
  files : s.fs.Inv
  access : ∀ c h, .used c h ∈ s.fs.trace → c.allowed (s.flags h) = true
  flags : ∀ h < s.fs.next, s.flags h = (s.openings h).flags

end Access

/-! ## Which calls a step makes -/

namespace Spiffs

variable {s : Spiffs} {c : LfsCall} {x h : Nat}

/-- A call on the handle of a file. -/
def OpCall (s : Spiffs) (a : FsLabel) (c : LfsCall) (x : Nat) : Prop :=
  ∃ i o, a = .op i o ∧ c ∈ o.calls ∧ s.implOf i = some x ∧ (s.impls x).opened = true ∧
    (s.impls x).isDir = false

theorem used_release {old : Option Nat} :
    .used c x ∈ (s.release old).trace ↔ .used c x ∈ s.trace := by
  cases old with
  | none => exact Iff.rfl
  | some h =>
    simp only [release]
    split
    · simp only [destroyImpl]
      split <;> split <;> simp
    · exact Iff.rfl

theorem used_closeImpl : .used c x ∈ (s.closeImpl h).trace ↔ .used c x ∈ s.trace := by
  simp only [closeImpl]
  split
  · exact Iff.rfl
  · split <;> split <;> simp

theorem used_openNext (hc : c ≠ .dirRead) (entries : List Entry) :
    .used c x ∈ (openNext h entries s).trace ↔ .used c x ∈ s.trace := by
  induction entries generalizing s with
  | nil => simp [openNext, newEmpty, use, hc]
  | cons e entries ih =>
    have huse : .used c x ∈ (s.use h [.dirRead]).trace ↔ .used c x ∈ s.trace := by simp [use, hc]
    cases e with
    | dots => exact ih.trans huse
    | child isDir ok =>
      cases ok with
      | false => exact ih.trans huse
      | true => simp [openNext, newFile, use, hc]

theorem next_openNext (entries : List Entry) : (openNext h entries s).next ≤ s.next + 1 := by
  induction entries generalizing s with
  | nil => exact Nat.le_succ _
  | cons e entries ih =>
    cases e with
    | dots => exact ih (s := s.use h [.dirRead])
    | child isDir ok =>
      cases ok with
      | false => exact ih (s := s.use h [.dirRead])
      | true => exact Nat.le_refl _

theorem next_release (old : Option Nat) : (s.release old).next = s.next := by
  unfold release
  split
  · rfl
  · split <;> rfl

theorem next_closeImpl : (s.closeImpl h).next = s.next := by
  unfold closeImpl
  dsimp only
  split
  · rfl
  · split <;> rfl

theorem next_step (a : FsLabel) : (s.step a).next ≤ s.next + 1 := by
  cases a with
  | begin r =>
    simp only [step]
    split
    · exact Nat.le_succ _
    · cases r <;> exact Nat.le_succ _
  | finish | format =>
    simp only [step, unmount]
    split <;> exact Nat.le_succ _
  | openPath isDir ok =>
    simp only [step]
    split
    · exact Nat.le_refl _
    · exact Nat.le_succ _
  | op i o | rewindDirectory i =>
    simp only [step]
    split
    · exact Nat.le_succ _
    · split <;> exact Nat.le_succ _
  | close i =>
    simp only [step]
    split
    · exact Nat.le_succ _
    · exact Nat.le_succ_of_le (Nat.le_of_eq next_closeImpl)
  | openNextFile i entries =>
    simp only [step]
    split
    · exact Nat.le_succ _
    · split
      · exact Nat.le_succ _
      · exact next_openNext entries
  | copy i => exact Nat.le_succ _
  | assign i j | destroy i => exact Nat.le_succ_of_le (Nat.le_of_eq (next_release _))

theorem used_step (a : FsLabel) (hread : c ≠ .dirRead) (hrewind : c ≠ .dirRewind) :
    .used c x ∈ (s.step a).trace ↔ .used c x ∈ s.trace ∨ s.OpCall a c x := by
  have hother : (∀ i o, a ≠ .op i o) → ¬ s.OpCall a c x := by
    rintro hne ⟨i, o, ha, -⟩
    exact hne i o ha
  cases a with
  | op i o =>
    simp only [step]
    split
    · next hi =>
      refine (or_iff_left ?_).symm
      rintro ⟨i', o', ⟨rfl, rfl⟩, -, hi', -⟩
      rw [hi] at hi'
      cases hi'
    · next h hi =>
      split
      · next hno =>
        refine (or_iff_left ?_).symm
        rintro ⟨i', o', ⟨rfl, rfl⟩, -, hi', hopen, hdir⟩
        obtain rfl := Option.some.inj (hi.symm.trans hi')
        simp [hopen, hdir] at hno
      · next hyes =>
        have hopen : (s.impls h).opened = true ∧ (s.impls h).isDir = false := by
          simpa using hyes
        rw [use, used_mem_uses, or_comm]
        refine or_congr_right ⟨?_, ?_⟩
        · rintro ⟨hc, rfl⟩
          exact ⟨i, o, rfl, hc, hi, hopen.1, hopen.2⟩
        · rintro ⟨i', o', ⟨rfl, rfl⟩, hc, hi', -, -⟩
          exact ⟨hc, Option.some.inj (hi'.symm.trans hi)⟩
  | begin r =>
    rw [or_iff_left (hother (by simp))]
    simp only [step]
    split
    · exact Iff.rfl
    · cases r <;> simp
  | finish | format =>
    rw [or_iff_left (hother (by simp))]
    simp only [step, unmount]
    split <;> simp
  | openPath isDir ok =>
    rw [or_iff_left (hother (by simp))]
    simp only [step]
    split <;> simp [newFile, newEmpty]
  | close i =>
    rw [or_iff_left (hother (by simp))]
    simp only [step]
    split
    · exact Iff.rfl
    · exact used_closeImpl
  | openNextFile i entries =>
    rw [or_iff_left (hother (by simp))]
    simp only [step]
    split
    · exact Iff.rfl
    · split
      · exact Iff.rfl
      · exact used_openNext hread entries
  | rewindDirectory i =>
    rw [or_iff_left (hother (by simp))]
    simp only [step]
    split
    · exact Iff.rfl
    · split
      · simp [use, hrewind]
      · exact Iff.rfl
  | copy i =>
    rw [or_iff_left (hother (by simp))]
    exact Iff.rfl
  | assign i j | destroy i =>
    rw [or_iff_left (hother (by simp))]
    exact used_release

end Spiffs

/-! ## Runs -/

namespace Access

variable {s : Access} {c : LfsCall} {h : Nat}

theorem inv_start : Inv start :=
  ⟨Spiffs.inv_start, by simp [start, Spiffs.start], fun _ hlt => absurd hlt (Nat.not_lt_zero _)⟩

theorem asserted_of_inv (hi : Inv s) : Asserted s := ⟨hi.files.valid, hi.access⟩

theorem lt_of_used (hi : Inv s) (hu : .used c h ∈ s.fs.trace) : h < s.fs.next :=
  hi.files.known h (opened_of_used hi.files.valid hu)

theorem flags_step (a : AccessLabel) (hlt : h < s.fs.next) : (s.step a).flags h = s.flags h := by
  simp only [step]
  split
  · rfl
  · exact Function.update_of_ne (by omega) _ _

/-- The flags of a file are those that it was opened with. -/
theorem flags_known (hi : Inv s) (a : AccessLabel) (hlt : h < (s.step a).fs.next) :
    (s.step a).flags h = ((s.step a).openings h).flags := by
  have hnext : (s.step a).fs.next ≤ s.fs.next + 1 := Spiffs.next_step a.label
  simp only [step] at hlt hnext ⊢
  split
  · next hsame => exact hi.flags h (hsame ▸ hlt)
  · by_cases hh : h = s.fs.next
    · subst hh
      simp only [Function.update_self]
      exact a.opensWith_eq
    · simp only [Function.update_of_ne hh]
      exact hi.flags h (by omega)

theorem allowed_dir (flags : BitVec 32) :
    LfsCall.dirRead.allowed flags = true ∧ LfsCall.dirRewind.allowed flags = true := ⟨rfl, rfl⟩

theorem inv_step (s : Access) (a : AccessLabel) (hi : Inv s) (hq : s.Quiet a) (hc : s.Fitting a) :
    Inv (s.step a) := by
  refine ⟨Spiffs.inv_step s.fs a.label hi.files hq, fun c h hu => ?_,
    fun h hlt => flags_known hi a hlt⟩
  by_cases hdir : c = .dirRead ∨ c = .dirRewind
  · rcases hdir with rfl | rfl
    · exact (allowed_dir _).1
    · exact (allowed_dir _).2
  · obtain ⟨hread, hrewind⟩ := not_or.mp hdir
    rcases (Spiffs.used_step a.label hread hrewind).mp hu with hold | hnew
    · rw [flags_step a (lt_of_used hi hold)]
      exact hi.access c h hold
    · obtain ⟨i, o, ha, hcall, himpl, hopen, hisDir⟩ := hnew
      have hlt := Spiffs.lt_of_implOf hi.files.toTraceOk i h himpl
      rw [flags_step a hlt, hi.flags h hlt]
      unfold Fitting at hc
      rw [ha] at hc
      exact (FileOp.fits_iff o _).mp (hc h himpl hopen hisDir) c hcall

/-- A call that does not fit fails its assertion. -/
theorem not_asserted_step (s : Access) (a : AccessLabel) (hi : Inv s) (hc : ¬ s.Fitting a) :
    ¬ Asserted (s.step a) := by
  intro hok
  refine hc ?_
  unfold Fitting
  split
  · next i o ha =>
    intro h himpl hopen hisDir
    have hlt := Spiffs.lt_of_implOf hi.files.toTraceOk i h himpl
    refine (FileOp.fits_iff o _).mpr fun c hcall => ?_
    by_cases hdir : c = .dirRead ∨ c = .dirRewind
    · rcases hdir with rfl | rfl
      · exact (allowed_dir _).1
      · exact (allowed_dir _).2
    · obtain ⟨hread, hrewind⟩ := not_or.mp hdir
      have hu := (Spiffs.used_step a.label hread hrewind).mpr
        (Or.inr ⟨i, o, ha, hcall, himpl, hopen, hisDir⟩)
      have hallowed := hok.access c h hu
      rwa [flags_step a hlt, hi.flags h hlt] at hallowed
  · trivial

/-- **Access**: in a run in which the file system stays mounted while files are open, every
assertion holds if and only if every file is used as it was opened. -/
theorem asserted_iff (labels : List AccessLabel) (hq : Meets step Quiet start labels) :
    Along step Asserted start labels ↔ Meets step Fitting start labels :=
  along_iff_meets (fun s a hi hq hc => inv_step s a hi hq hc) (fun _ => asserted_of_inv)
    (fun s a hi _ hc => not_asserted_step s a hi hc) inv_start hq

/-- A file that is written, copied, sought in and closed; and a directory whose file is read. -/
def session : List AccessLabel :=
  [⟨.begin .mounted, none⟩, ⟨.openPath false true, some ['a']⟩, ⟨.op 0 (.write true), none⟩,
    ⟨.copy 0, none⟩, ⟨.op 1 .seek, none⟩, ⟨.close 0, none⟩, ⟨.openPath true true, none⟩,
    ⟨.openNextFile 2 [.child false true], none⟩, ⟨.op 3 (.peek true), none⟩]

theorem asserted_session : Along step Asserted start session :=
  (asserted_iff session (by decide)).mpr (by decide)

/-- A file that was opened with "r+" is written. -/
theorem not_asserted_write : ¬ ∀ labels : List AccessLabel, Meets step Quiet start labels →
    Along step Asserted start labels := by
  intro h
  have hlast := (h [⟨.begin .mounted, none⟩, ⟨.openPath false true, some ['r', '+']⟩,
    ⟨.op 0 (.write true), none⟩] (by decide)).last
  exact absurd (hlast.access .fileWrite 0 (by decide)) (by decide)

end Access

end Bl616cl.Fs
