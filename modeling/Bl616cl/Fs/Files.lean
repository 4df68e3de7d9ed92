import Mathlib.Data.List.Count
import Mathlib.Logic.Function.Basic
import Bl616cl.Lib.Handles
import Bl616cl.Lib.Run

/-!
# Files on SPIFFS

`FS.cpp` and `SPIFFS.cpp`: a `File` shares a `FileImpl`, which owns one LittleFS handle and closes
it when it is closed or when its last `File` goes; `SPIFFS` mounts and unmounts the one `s_lfs` that
all handles are on. The trace has the mounts and every `lfs_file_*` and `lfs_dir_*` call that
succeeds in opening a handle, or is made on one.

What the LittleFS calls return is part of the labels. Paths and contents are left out.
-/

namespace Bl616cl.Fs

open Bl616cl.Lib Handles

/-- The calls on an open handle. -/
inductive LfsCall where
  | fileRead | fileWrite | fileSeek | fileTell | fileSize | fileSync | dirRead | dirRewind
  deriving DecidableEq, Repr

/-- `file` and `dir` say whether the pointers are set. -/
structure FileImpl where
  file : Bool
  dir : Bool
  opened : Bool
  isDir : Bool
  deriving DecidableEq, Repr

/-- The operations on a file; `given` says that there is a buffer to use, `got` that `peek` has read
its byte. -/
inductive FileOp where
  | write (given : Bool)
  | read (given : Bool)
  | peek (got : Bool)
  | seek | available | size | position | flush
  deriving DecidableEq, Repr

def FileOp.calls : FileOp → List LfsCall
  | write given => if given then [.fileWrite] else []
  | read given => if given then [.fileRead] else []
  | peek got => if got then [.fileRead, .fileSeek] else [.fileRead]
  | seek => [.fileSeek]
  | available => [.fileSize, .fileTell]
  | size => [.fileSize]
  | position => [.fileTell]
  | flush => [.fileSync]

/-- What `openNextFile` reads from a directory, and whether it can open it. -/
inductive Entry where
  | dots
  | child (isDir ok : Bool)
  deriving DecidableEq, Repr

/-- How `mount_lfs` ends; `unregistered` is a mount that is taken back at once. -/
inductive MountResult where
  | failed | unregistered | mounted
  deriving DecidableEq, Repr

/-- The `FileImpl`s are numbered, and so are the `File` variables, by the order they were made in; a
variable that is gone or empty is `none`. -/
structure Spiffs where
  mounted : Bool
  impls : Nat → FileImpl
  next : Nat
  files : List (Option Nat)
  trace : List (Event Nat LfsCall)

inductive FsLabel where
  | begin (r : MountResult)
  | finish
  | format
  | openPath (isDir ok : Bool)
  | op (i : Nat) (o : FileOp)
  | close (i : Nat)
  | openNextFile (i : Nat) (entries : List Entry)
  | rewindDirectory (i : Nat)
  | copy (i : Nat)
  | assign (i j : Nat)
  | destroy (i : Nat)
  deriving DecidableEq, Repr

namespace Spiffs

def start : Spiffs := ⟨false, fun _ => ⟨false, false, false, false⟩, 0, [], []⟩

variable (s : Spiffs)

/-- The `FileImpl` of a variable. -/
def implOf (i : Nat) : Option Nat := s.files[i]?.join

/-- Calls on a handle. -/
def use (h : Nat) (calls : List LfsCall) : Spiffs := { s with trace := uses calls h s.trace }

/-- A `File` that refers to nothing. -/
def newEmpty : Spiffs := { s with files := s.files ++ [none] }

/-- A `FileImpl` with a handle that has just been opened, and its `File`. -/
def newFile (isDir : Bool) : Spiffs :=
  { s with
    impls := Function.update s.impls s.next ⟨!isDir, isDir, true, isDir⟩
    next := s.next + 1
    files := s.files ++ [some s.next]
    trace := .opened s.next :: s.trace }

/-! ## `FileImpl` -/

/-- `~FileImpl`. -/
def destroyImpl (h : Nat) : Spiffs :=
  let f := s.impls h
  let trace := if f.file && (f.opened && !f.isDir) then .closed h :: s.trace else s.trace
  let trace := if f.dir && (f.opened && f.isDir) then .closed h :: trace else trace
  { s with impls := Function.update s.impls h ⟨false, false, false, f.isDir⟩, trace := trace }

/-- A `File` has let go of this; the last one destroys it. -/
def release : Option Nat → Spiffs
  | none => s
  | some h => if s.files.count (some h) = 0 then s.destroyImpl h else s

/-- `File::close`. -/
def closeImpl (h : Nat) : Spiffs :=
  let f := s.impls h
  if !f.opened then s
  else if f.isDir then
    { s with
      impls := Function.update s.impls h { f with dir := false, opened := false }
      trace := if f.dir then .closed h :: s.trace else s.trace }
  else
    { s with
      impls := Function.update s.impls h { f with file := false, opened := false }
      trace := if f.file then .closed h :: s.trace else s.trace }

/-- The loop of `openNextFile`, over what the reads find. -/
def openNext (h : Nat) : List Entry → Spiffs → Spiffs
  | [], s => (s.use h [.dirRead]).newEmpty
  | .dots :: entries, s | .child _ false :: entries, s => openNext h entries (s.use h [.dirRead])
  | .child isDir true :: _, s => (s.use h [.dirRead]).newFile isDir

/-! ## Steps -/

def unmount : Spiffs :=
  if s.mounted then { s with mounted := false, trace := .detach :: s.trace } else s

def step : FsLabel → Spiffs
  | .begin r =>
    if s.mounted then s
    else
      match r with
      | .failed => s
      | .unregistered => { s with trace := .detach :: .attach :: s.trace }
      | .mounted => { s with mounted := true, trace := .attach :: s.trace }
  | .finish | .format => s.unmount
  | .openPath isDir ok => if s.mounted && ok then s.newFile isDir else s.newEmpty
  | .op i o =>
    match s.implOf i with
    | none => s
    | some h => if !(s.impls h).opened || (s.impls h).isDir then s else s.use h o.calls
  | .close i =>
    match s.implOf i with
    | none => s
    | some h => s.closeImpl h
  | .openNextFile i entries =>
    match s.implOf i with
    | none => s.newEmpty
    | some h =>
      if !(s.impls h).opened || !(s.impls h).isDir then s.newEmpty else openNext h entries s
  | .rewindDirectory i =>
    match s.implOf i with
    | none => s
    | some h =>
      if (s.impls h).opened && (s.impls h).isDir then s.use h [.dirRewind] else s
  | .copy i => { s with files := s.files ++ [s.implOf i] }
  | .assign i j => { s with files := s.files.set i (s.implOf j) }.release (s.implOf i)
  | .destroy i => { s with files := s.files.set i none }.release (s.implOf i)

/-! ## The property and its condition -/

/-- Every call is on a handle of the current mount that is not closed yet, and each handle is closed
once when its last `File` has gone. -/
structure HandlesOk : Prop where
  valid : Valid s.trace
  closed : ∀ h, .opened h ∈ s.trace →
    closes h s.trace ≤ 1 ∧ (some h ∉ s.files → closes h s.trace = 1)

/-- The file system is not unmounted under an open file. -/
def Quiet : FsLabel → Prop
  | .finish | .format => s.mounted = true → ∀ h < s.next, (s.impls h).opened = false
  | _ => True

/-- A `FileImpl` and its handle. -/
def ImplOk (h : Nat) : Prop :=
  if (s.impls h).opened then
    (s.impls h).file = (!(s.impls h).isDir) ∧ (s.impls h).dir = (s.impls h).isDir ∧
      isOpen s.trace h = true ∧ closes h s.trace = 0
  else closes h s.trace = 1

/-- What holds also while a `File` lets go of its `FileImpl`. -/
structure TraceOk : Prop where
  valid : Valid s.trace
  attached : attached s.trace = s.mounted
  impl : ∀ h < s.next, s.ImplOk h
  known : ∀ h, .opened h ∈ s.trace → h < s.next
  fresh : ∀ h, s.next ≤ h → closes h s.trace = 0
  old : ∀ h, some h ∈ s.files → h < s.next

/-- The invariant over runs. -/
structure Inv : Prop extends s.TraceOk where
  held : ∀ h < s.next, (s.impls h).opened = true → some h ∈ s.files

instance (s : Spiffs) : ∀ a, Decidable (s.Quiet a)
  | .finish | .format => inferInstanceAs (Decidable (_ → _))
  | .begin _ | .openPath _ _ | .op _ _ | .close _ | .openNextFile _ _ | .rewindDirectory _
  | .copy _ | .assign _ _ | .destroy _ => inferInstanceAs (Decidable True)

variable {s : Spiffs} {h i : Nat}

theorem inv_start : Inv start := by
  refine ⟨⟨trivial, rfl, ?_, ?_, ?_, ?_⟩, ?_⟩ <;> simp [start, closes]

theorem ImplOk.of_opened (hok : s.ImplOk h) (hopen : (s.impls h).opened = true) :
    (s.impls h).file = (!(s.impls h).isDir) ∧ (s.impls h).dir = (s.impls h).isDir ∧
      isOpen s.trace h = true ∧ closes h s.trace = 0 := by
  unfold ImplOk at hok
  rwa [if_pos hopen] at hok

theorem ImplOk.of_closed (hok : s.ImplOk h) (hopen : (s.impls h).opened = false) :
    closes h s.trace = 1 := by
  unfold ImplOk at hok
  rwa [if_neg (by simp [hopen])] at hok

theorem handlesOk_of_inv (hi : Inv s) : HandlesOk s := by
  refine ⟨hi.valid, fun h hmem => ?_⟩
  have hlt := hi.known h hmem
  cases hopen : (s.impls h).opened with
  | true =>
    obtain ⟨-, -, -, hzero⟩ := (hi.impl h hlt).of_opened hopen
    rw [hzero]
    exact ⟨Nat.zero_le _, fun hgone => absurd (hi.held h hlt hopen) hgone⟩
  | false =>
    have hone := (hi.impl h hlt).of_closed hopen
    exact ⟨Nat.le_of_eq hone, fun _ => hone⟩

/-! ## The handles of open files -/

theorem mem_of_implOf (hi : s.implOf i = some h) : some h ∈ s.files := by
  unfold implOf at hi
  cases hf : s.files[i]? with
  | none =>
    rw [hf] at hi
    cases hi
  | some f =>
    rw [hf] at hi
    obtain rfl : f = some h := hi
    exact List.mem_of_getElem? hf

theorem isOpen_of_opened (hi : TraceOk s) (hlt : h < s.next) (hopen : (s.impls h).opened = true) :
    isOpen s.trace h = true :=
  ((hi.impl h hlt).of_opened hopen).2.2.1

theorem inv_use (hi : Inv s) (hlt : h < s.next) (hopen : (s.impls h).opened = true)
    (calls : List LfsCall) : Inv (s.use h calls) := by
  refine ⟨⟨?_, ?_, ?_, ?_, ?_, hi.old⟩, hi.held⟩
  · exact valid_uses hi.valid (isOpen_of_opened hi.toTraceOk hlt hopen)
  · exact attached_uses.trans hi.attached
  · intro h' hlt'
    have hok := hi.impl h' hlt'
    unfold ImplOk at hok ⊢
    simpa only [use, isOpen_uses, closes_uses] using hok
  · exact fun h' hmem => hi.known h' (opened_mem_uses.mp hmem)
  · exact fun h' hle => closes_uses.trans (hi.fresh h' hle)

theorem traceOk_closed {f : FileImpl} (hi : TraceOk s) (hlt : h < s.next)
    (hopen : (s.impls h).opened = true) (hf : f.opened = false) :
    TraceOk { s with
      impls := Function.update s.impls h f
      trace := .closed h :: s.trace } := by
  obtain ⟨-, -, hisOpen, hzero⟩ := (hi.impl h hlt).of_opened hopen
  refine ⟨⟨hisOpen, hi.valid⟩, hi.attached, ?_, ?_, ?_, hi.old⟩
  · intro h' hlt'
    unfold ImplOk
    by_cases hh : h' = h
    · subst hh
      simp only [Function.update_self, hf]
      rw [if_neg Bool.false_ne_true, closes_closed_self, hzero]
    · have hok' := hi.impl h' hlt'
      unfold ImplOk at hok'
      simpa only [Function.update_of_ne hh, isOpen_closed_ne (Ne.symm hh),
        closes_closed_ne (Ne.symm hh)] using hok'
  · intro h' hmem
    exact hi.known h' (by simpa using hmem)
  · intro h' (hle : s.next ≤ h')
    rw [closes_closed_ne (by omega)]
    exact hi.fresh h' hle

theorem traceOk_update {f : FileImpl} (hi : TraceOk s) (hopen : (s.impls h).opened = false)
    (hf : f.opened = false) : TraceOk { s with impls := Function.update s.impls h f } := by
  refine ⟨hi.valid, hi.attached, fun h' hlt' => ?_, hi.known, hi.fresh, hi.old⟩
  have hok' := hi.impl h' hlt'
  unfold ImplOk at hok' ⊢
  by_cases hh : h' = h
  · subst hh
    simpa only [Function.update_self, hf, hopen, Bool.false_eq_true, if_false] using hok'
  · simpa only [Function.update_of_ne hh] using hok'

/-- `~FileImpl` closes what is open. -/
theorem traceOk_destroyImpl (hi : TraceOk s) (hlt : h < s.next) : TraceOk (s.destroyImpl h) := by
  cases hopen : (s.impls h).opened with
  | false =>
    simpa [destroyImpl, hopen] using traceOk_update hi hopen rfl
  | true =>
    obtain ⟨hfile, hdir, -, -⟩ := (hi.impl h hlt).of_opened hopen
    have hclosed := traceOk_closed (f := ⟨false, false, false, (s.impls h).isDir⟩) hi hlt hopen rfl
    cases hd : (s.impls h).isDir with
    | true => simpa [destroyImpl, hopen, hfile, hdir, hd] using hclosed
    | false => simpa [destroyImpl, hopen, hfile, hdir, hd] using hclosed

theorem closeImpl_opened (hopen : (s.impls h).opened = true)
    (hfile : (s.impls h).file = (!(s.impls h).isDir))
    (hdir : (s.impls h).dir = (s.impls h).isDir) :
    ∃ f : FileImpl, f.opened = false ∧ s.closeImpl h = { s with
      impls := Function.update s.impls h f
      trace := .closed h :: s.trace } := by
  unfold closeImpl
  cases hd : (s.impls h).isDir with
  | true =>
    rw [hd] at hdir
    exact ⟨{ s.impls h with dir := false, opened := false }, rfl, by simp [hopen, hdir, hd]⟩
  | false =>
    rw [hd] at hfile
    exact ⟨{ s.impls h with file := false, opened := false }, rfl, by simp [hopen, hfile, hd]⟩

theorem inv_closeImpl (hi : Inv s) (hlt : h < s.next) : Inv (s.closeImpl h) := by
  cases hopen : (s.impls h).opened with
  | false =>
    rw [closeImpl, hopen]
    exact hi
  | true =>
    obtain ⟨hfile, hdir, -, -⟩ := (hi.impl h hlt).of_opened hopen
    obtain ⟨f, hf, hclose⟩ := closeImpl_opened hopen hfile hdir
    rw [hclose]
    refine ⟨traceOk_closed hi.toTraceOk hlt hopen hf, fun h' hlt' hopen' => ?_⟩
    by_cases hh : h' = h
    · subst hh
      simp only [Function.update_self, hf] at hopen'
      cases hopen'
    · simp only [Function.update_of_ne hh] at hopen'
      exact hi.held h' hlt' hopen'

/-! ## The files that refer to them -/

theorem inv_release {old : Option Nat} (hi : TraceOk s) (hold : ∀ h ∈ old, h < s.next)
    (hheld : ∀ h < s.next, (s.impls h).opened = true → some h ∈ s.files ∨ old = some h) :
    Inv (s.release old) := by
  cases old with
  | none =>
    refine ⟨hi, fun h hlt hopen => (hheld h hlt hopen).resolve_right ?_⟩
    simp
  | some h =>
    have hlt := hold h rfl
    simp only [release]
    split
    · next hzero =>
      refine ⟨traceOk_destroyImpl hi hlt, fun h' hlt' hopen' => ?_⟩
      by_cases hh : h' = h
      · subst hh
        simp [destroyImpl] at hopen'
      · simp only [destroyImpl, Function.update_of_ne hh] at hopen'
        refine (hheld h' hlt' hopen').resolve_right fun he => hh ?_
        exact (Option.some.inj he).symm
    · next hpos =>
      refine ⟨hi, fun h' hlt' hopen' => ?_⟩
      rcases hheld h' hlt' hopen' with hmem | he
      · exact hmem
      · rw [← he]
        exact List.count_pos_iff.mp (Nat.pos_of_ne_zero hpos)

/-- A new variable, for no `FileImpl` or one that there is. -/
theorem inv_append {f : Option Nat} (hi : Inv s) (hf : ∀ h ∈ f, h < s.next) :
    Inv { s with files := s.files ++ [f] } := by
  refine ⟨⟨hi.valid, hi.attached, hi.impl, hi.known, hi.fresh, ?_⟩, ?_⟩
  · intro h hmem
    rcases List.mem_append.mp hmem with hmem | hmem
    · exact hi.old h hmem
    · exact hf h (List.mem_singleton.mp hmem).symm
  · exact fun h hlt hopen => List.mem_append_left _ (hi.held h hlt hopen)

theorem lt_of_implOf (hi : TraceOk s) (i : Nat) : ∀ h ∈ s.implOf i, h < s.next :=
  fun h hh => hi.old h (mem_of_implOf hh)

theorem inv_set {f : Option Nat} (hi : Inv s) (hf : ∀ h ∈ f, h < s.next) :
    Inv ({ s with files := s.files.set i f }.release (s.implOf i)) := by
  refine inv_release ⟨hi.valid, hi.attached, hi.impl, hi.known, hi.fresh, ?_⟩
    (lt_of_implOf hi.toTraceOk i) fun h hlt hopen => ?_
  · intro h hmem
    rcases List.mem_or_eq_of_mem_set hmem with hmem | rfl
    · exact hi.old h hmem
    · exact hf h rfl
  · obtain ⟨j, hj⟩ := List.getElem?_of_mem (hi.held h hlt hopen)
    by_cases hij : i = j
    · subst hij
      right
      simp [implOf, hj]
    · left
      refine List.mem_of_getElem? (i := j) ?_
      rw [List.getElem?_set_ne hij]
      exact hj

theorem inv_newFile (hi : Inv s) (hm : s.mounted = true) (isDir : Bool) :
    Inv (s.newFile isDir) := by
  have hnext : (s.newFile isDir).next = s.next + 1 := rfl
  refine ⟨⟨hi.valid, hi.attached, fun h hlt => ?_, fun h hmem => ?_, fun h hle => ?_, ?_⟩, ?_⟩
  · unfold ImplOk
    by_cases hnew : h = s.next
    · subst hnew
      simp only [newFile, Function.update_self, if_true]
      refine ⟨trivial, trivial, isOpen_opened (hi.attached.trans hm), ?_⟩
      exact hi.fresh s.next (Nat.le_refl _)
    · have hok := hi.impl h (by omega)
      unfold ImplOk at hok
      have hopen : isOpen (.opened s.next :: s.trace) h = isOpen s.trace h := by
        simp [isOpen, Ne.symm hnew]
      have hcloses : closes h (.opened s.next :: s.trace) = closes h s.trace := rfl
      simpa only [newFile, Function.update_of_ne hnew, hopen, hcloses] using hok
  · rcases List.mem_cons.mp hmem with he | hmem
    · cases he
      omega
    · have hold := hi.known h hmem
      omega
  · exact hi.fresh h (by omega)
  · intro h hmem
    rcases List.mem_append.mp hmem with hmem | hmem
    · have hold := hi.old h hmem
      omega
    · obtain rfl := Option.some.inj (List.mem_singleton.mp hmem)
      omega
  · intro h hlt hopen
    by_cases hnew : h = s.next
    · subst hnew
      exact List.mem_append_right _ (List.mem_singleton.mpr rfl)
    · simp only [newFile, Function.update_of_ne hnew] at hopen
      exact List.mem_append_left _ (hi.held h (by omega) hopen)

/-! ## Mounting -/

theorem inv_mount {mounted : Bool} {trace : List (Event Nat LfsCall)} (hi : Inv s)
    (hclosed : ∀ h < s.next, (s.impls h).opened = false) (hvalid : Valid trace)
    (hattached : attached trace = mounted) (hknown : ∀ h, .opened h ∈ trace → .opened h ∈ s.trace)
    (hcloses : ∀ h, closes h trace = closes h s.trace) :
    Inv { s with mounted := mounted, trace := trace } := by
  refine ⟨⟨hvalid, hattached, fun h hlt => ?_, fun h hmem => hi.known h (hknown h hmem),
    fun h hle => (hcloses h).trans (hi.fresh h hle), hi.old⟩, hi.held⟩
  have hok := hi.impl h hlt
  unfold ImplOk at hok ⊢
  simpa only [hclosed h hlt, Bool.false_eq_true, if_false, hcloses] using hok

theorem closed_of_unmounted (hi : Inv s) (hm : s.mounted = false) :
    ∀ h < s.next, (s.impls h).opened = false := by
  intro h hlt
  by_contra hopen
  rw [Bool.not_eq_false] at hopen
  have hattached := attached_of_isOpen (isOpen_of_opened hi.toTraceOk hlt hopen)
  rw [hi.attached, hm] at hattached
  cases hattached

theorem inv_begin (hi : Inv s) (r : MountResult) : Inv (s.step (.begin r)) := by
  simp only [step]
  split
  · exact hi
  · next hm =>
    have hclosed := closed_of_unmounted hi (Bool.not_eq_true _ ▸ hm)
    cases r with
    | failed => exact hi
    | unregistered =>
      refine inv_mount hi hclosed hi.valid ?_ (by simp) fun _ => rfl
      exact (Bool.not_eq_true _ ▸ hm).symm
    | mounted => exact inv_mount hi hclosed hi.valid rfl (by simp) fun _ => rfl

theorem inv_unmount (hi : Inv s)
    (hc : s.mounted = true → ∀ h < s.next, (s.impls h).opened = false) : Inv s.unmount := by
  unfold unmount
  split
  · next hm => exact inv_mount hi (hc hm) hi.valid rfl (by simp) fun _ => rfl
  · exact hi

/-! ## Runs -/

theorem mounted_of_opened (hi : Inv s) (hlt : h < s.next) (hopen : (s.impls h).opened = true) :
    s.mounted = true := by
  rw [← hi.attached]
  exact attached_of_isOpen (isOpen_of_opened hi.toTraceOk hlt hopen)

theorem inv_newEmpty (hi : Inv s) : Inv s.newEmpty := inv_append hi (by simp)

theorem inv_openNext (hi : Inv s) (hlt : h < s.next) (hopen : (s.impls h).opened = true)
    (entries : List Entry) : Inv (openNext h entries s) := by
  induction entries generalizing s with
  | nil => exact inv_newEmpty (inv_use hi hlt hopen _)
  | cons e entries ih =>
    have huse := inv_use hi hlt hopen [.dirRead]
    cases e with
    | dots => exact ih huse hlt hopen
    | child isDir ok =>
      cases ok with
      | false => exact ih huse hlt hopen
      | true => exact inv_newFile huse (mounted_of_opened huse hlt hopen) isDir

/-- **Step**: every call keeps the invariant, unless it unmounts under an open file. -/
theorem inv_step (s : Spiffs) (a : FsLabel) (hi : Inv s) (hc : s.Quiet a) : Inv (s.step a) := by
  have hlt := lt_of_implOf hi.toTraceOk
  cases a with
  | begin r => exact inv_begin hi r
  | finish => exact inv_unmount hi hc
  | format => exact inv_unmount hi hc
  | openPath isDir ok =>
    simp only [step]
    split
    · next hm => exact inv_newFile hi (Bool.and_eq_true_iff.mp hm).1 isDir
    · exact inv_newEmpty hi
  | op i o =>
    simp only [step]
    split
    · exact hi
    · next h hh =>
      split
      · exact hi
      · next hopen => exact inv_use hi (hlt i h hh) (by simp_all) o.calls
  | close i =>
    simp only [step]
    split
    · exact hi
    · next h hh => exact inv_closeImpl hi (hlt i h hh)
  | openNextFile i entries =>
    simp only [step]
    split
    · exact inv_newEmpty hi
    · next h hh =>
      split
      · exact inv_newEmpty hi
      · next hopen => exact inv_openNext hi (hlt i h hh) (by simp_all) entries
  | rewindDirectory i =>
    simp only [step]
    split
    · exact hi
    · next h hh =>
      split
      · next hopen => exact inv_use hi (hlt i h hh) (Bool.and_eq_true_iff.mp hopen).1 _
      · exact hi
  | copy i => exact inv_append hi (hlt i)
  | assign i j => exact inv_set hi (hlt j)
  | destroy i => exact inv_set hi (by simp)

/-- **Files**: in every run in which the file system is not unmounted under an open file, every call
is on a handle of the current mount that is not closed, and each handle is closed exactly once by
the time its last `File` is destroyed. -/
theorem handlesOk_of_quiet (labels : List FsLabel) (hq : Meets step Quiet start labels) :
    Along step HandlesOk start labels :=
  (along_of_meets inv_step inv_start hq).mono fun _ => handlesOk_of_inv

/-! ## Unmounting under an open file -/

/-- A file that was open then cannot even be closed. -/
theorem not_handlesOk_finish (hi : Inv s) (hh : s.implOf i = some h)
    (hopen : (s.impls h).opened = true) :
    ¬ HandlesOk ((s.step .finish).step (.close i)) := by
  intro hok
  have hlt := lt_of_implOf hi.toTraceOk i h hh
  have hfinish : s.step .finish = { s with mounted := false, trace := .detach :: s.trace } :=
    if_pos (mounted_of_opened hi hlt hopen)
  obtain ⟨hfile, hdir, -, -⟩ := (hi.impl h hlt).of_opened hopen
  obtain ⟨f, -, hclose⟩ := closeImpl_opened
    (s := { s with mounted := false, trace := .detach :: s.trace }) hopen hfile hdir
  have hstep : (s.step .finish).step (.close i) =
      closeImpl { s with mounted := false, trace := .detach :: s.trace } h := by
    rw [hfinish]
    simp only [step]
    rw [show implOf { s with mounted := false, trace := .detach :: s.trace } i = some h from hh]
  rw [hstep, hclose] at hok
  exact Bool.false_ne_true hok.valid.1

/-- Copies of a file, closed twice, and a directory that is read and let go before `end`. -/
theorem handlesOk_session : Along step HandlesOk start
    [.begin .mounted, .openPath false true, .copy 0, .op 1 (.write true), .close 0, .close 1,
      .destroy 0, .openPath true true, .openNextFile 2 [.dots, .child false true],
      .op 3 (.peek true), .assign 3 1, .destroy 2, .finish, .op 1 .size] :=
  handlesOk_of_quiet _ (by decide)

/-- A file is read after `end`. -/
theorem not_handlesOk_stale : ¬ ∀ labels : List FsLabel, Along step HandlesOk start labels := by
  intro h
  have hlast := (h [.begin .mounted, .openPath false true, .finish, .op 0 (.read true)]).last
  exact absurd hlast.valid (by decide)

end Spiffs

end Bl616cl.Fs
