import Mathlib.Data.List.Count
import Bl616cl.Lib.Run

/-!
# Mounting SPIFFS

`SPIFFS.cpp` keeps `s_mounted` and mounts `s_lfs`; `port_file_littlefs.c` keeps the registry of the
file systems that `fopen` can reach and the default one. Other code may register and unregister file
systems of its own between the calls.

What the LittleFS calls return is part of the labels. A file system that `lfs_mount` fails on is not
mounted, and `lfs_format` leaves it unmounted.
-/

namespace Bl616cl.Fs

open Bl616cl.Lib

/-- The file systems, by their `lfs_t`: `s_lfs` and those of other code. -/
inductive Volume where
  | spiffs
  | other (n : Nat)
  deriving DecidableEq, Repr

/-- An entry of the registry that is in use. -/
structure FsEntry where
  lfs : Volume
  mountPoint : String
  deriving DecidableEq, Repr

structure Port where
  /-- `lfs_fs_registry`, in which `none` is not in use. -/
  registry : List (Option FsEntry)
  /-- `lfs_default_fs`. -/
  default : Option Volume
  deriving DecidableEq, Repr

structure Mount where
  port : Port
  /-- `s_mounted` and `s_ctx_inited`. -/
  mounted : Bool
  ctxInited : Bool
  /-- `s_lfs` is mounted. -/
  live : Bool
  /-- How often `lfs_format` has been called on it. -/
  formats : Nat
  deriving DecidableEq, Repr

/-- The results of the calls in `begin` and `format`: `lfs_port_init`, the first `lfs_mount`,
`lfs_format` and the second `lfs_mount`. -/
structure MountIo where
  ctx : Bool
  mount : Bool
  format : Bool
  remount : Bool
  deriving DecidableEq, Repr

inductive MountLabel where
  | begin (formatOnFail : Bool) (io : MountIo)
  | finish
  | format (io : MountIo)
  | register (n : Nat) (mountPoint : String)
  | unregister (n : Nat)
  deriving DecidableEq, Repr

/-! ## The registry -/

/-- The first free slot is taken. -/
def takeSlot (e : FsEntry) : List (Option FsEntry) → Option (List (Option FsEntry))
  | [] => none
  | none :: slots => some (some e :: slots)
  | some e' :: slots => (takeSlot e slots).map (some e' :: ·)

/-- The first slot of the file system is given back. -/
def freeSlot (lfs : Volume) : List (Option FsEntry) → Option (List (Option FsEntry))
  | [] => none
  | none :: slots => (freeSlot lfs slots).map (none :: ·)
  | some e :: slots =>
    if e.lfs = lfs then some (none :: slots) else (freeSlot lfs slots).map (some e :: ·)

/-- The entries that refer to the file system. -/
def entries (lfs : Volume) (slots : List (Option FsEntry)) : Nat :=
  slots.countP fun slot => slot.any fun e => e.lfs == lfs

namespace Port

variable (p : Port)

/-- `lfs_port_register_fs`. -/
def registerFs (lfs : Volume) (mountPoint : String) : Bool × Port :=
  match takeSlot ⟨lfs, mountPoint⟩ p.registry with
  | none => (false, p)
  | some registry => (true, ⟨registry, some (p.default.getD lfs)⟩)

/-- `lfs_port_unregister_fs`. -/
def unregisterFs (lfs : Volume) : Port :=
  match freeSlot lfs p.registry with
  | none => p
  | some registry => ⟨registry, if p.default = some lfs then none else p.default⟩

/-- `lfs_port_set_default`. -/
def setDefault (lfs : Volume) : Port := { p with default := some lfs }

end Port

/-! ## Steps -/

namespace Mount

/-- At the start of the program; others may have registered file systems already. -/
def start (others : List (Option (Nat × String))) (default : Option Nat) : Mount :=
  ⟨⟨others.map (Option.map fun o => ⟨.other o.1, o.2⟩), default.map .other⟩, false, false, false, 0⟩

variable (s : Mount)

/-- `ensure_ctx`. -/
def ensureCtx (io : MountIo) : Bool × Mount :=
  if s.ctxInited then (true, s)
  else if io.ctx then (true, { s with ctxInited := true })
  else (false, s)

/-- `mount_lfs`, from the registration on. -/
def registerLfs : Bool × Mount :=
  match s.port.registerFs .spiffs "/spiffs" with
  | (false, port) => (false, { s with port := port, live := false })
  | (true, port) => (true, { s with port := port.setDefault .spiffs, mounted := true })

/-- `mount_lfs`. -/
def mountLfs (formatOnFail : Bool) (io : MountIo) : Bool × Mount :=
  if s.mounted then (true, s)
  else
    match s.ensureCtx io with
    | (false, s) => (false, s)
    | (true, s) =>
      if io.mount then { s with live := true }.registerLfs
      else if !formatOnFail then (false, { s with live := false })
      else
        let s := { s with live := false, formats := s.formats + 1 }
        if !io.format then (false, s)
        else if !io.remount then (false, s)
        else { s with live := true }.registerLfs

/-- `unmount_lfs`. -/
def unmountLfs : Mount :=
  if s.mounted then
    { s with port := s.port.unregisterFs .spiffs, live := false, mounted := false }
  else s

/-- `SPIFFSClass::format`. -/
def formatLfs (io : MountIo) : Bool × Mount :=
  match s.unmountLfs.ensureCtx io with
  | (false, s) => (false, s)
  | (true, s) => (io.format, { s with live := false, formats := s.formats + 1 })

def step : MountLabel → Mount
  | .begin formatOnFail io => (s.mountLfs formatOnFail io).2
  | .finish => s.unmountLfs
  | .format io => (s.formatLfs io).2
  | .register n mountPoint => { s with port := (s.port.registerFs (.other n) mountPoint).2 }
  | .unregister n => { s with port := s.port.unregisterFs (.other n) }

/-! ## The property -/

/-- `s_mounted` says whether `s_lfs` is mounted, and whether it is registered once and the default
of `fopen`. -/
structure Agreed : Prop where
  live : s.mounted = true ↔ s.live = true
  registered : s.mounted = true ↔
    entries .spiffs s.port.registry = 1 ∧ s.port.default = some .spiffs

/-- What a call returns, and that it does not format what it should not. -/
def Honest : MountLabel → Prop
  | .begin formatOnFail io =>
    ((s.mountLfs formatOnFail io).1 = true ↔ (s.mountLfs formatOnFail io).2.mounted = true) ∧
      (formatOnFail = false → (s.mountLfs formatOnFail io).2.formats = s.formats)
  | .finish => s.unmountLfs.formats = s.formats
  | .format _ | .register _ _ | .unregister _ => True

/-- The invariant over runs. -/
structure Inv : Prop where
  live : s.live = s.mounted
  entries : entries .spiffs s.port.registry = if s.mounted then 1 else 0
  default : s.port.default = some .spiffs ↔ s.mounted = true

end Mount

/-! ## Slots -/

section Slots

variable {e : FsEntry} {lfs lfs' : Volume} {slots slots' : List (Option FsEntry)}

theorem entries_takeSlot (lfs : Volume) (h : takeSlot e slots = some slots') :
    entries lfs slots' = entries lfs slots + if e.lfs = lfs then 1 else 0 := by
  induction slots generalizing slots' with
  | nil => cases h
  | cons slot slots ih =>
    cases slot with
    | none =>
      obtain rfl := Option.some.inj h
      simp [entries, List.countP_cons]
    | some e' =>
      obtain ⟨rest, hrest, rfl⟩ := Option.map_eq_some_iff.mp h
      have hih := ih hrest
      simp only [entries, List.countP_cons] at hih ⊢
      omega

theorem entries_freeSlot (lfs' : Volume) (h : freeSlot lfs slots = some slots') :
    entries lfs' slots = entries lfs' slots' + if lfs = lfs' then 1 else 0 := by
  induction slots generalizing slots' with
  | nil => cases h
  | cons slot slots ih =>
    cases slot with
    | none =>
      obtain ⟨rest, hrest, rfl⟩ := Option.map_eq_some_iff.mp h
      have hih := ih hrest
      simp only [entries, List.countP_cons] at hih ⊢
      omega
    | some e =>
      simp only [freeSlot] at h
      split at h
      · next heq =>
        obtain rfl := Option.some.inj h
        simp [entries, List.countP_cons, heq]
      · obtain ⟨rest, hrest, rfl⟩ := Option.map_eq_some_iff.mp h
        have hih := ih hrest
        simp only [entries, List.countP_cons] at hih ⊢
        omega

/-- A file system without a free slot to give back is not registered. -/
theorem entries_of_freeSlot (h : freeSlot lfs slots = none) : entries lfs slots = 0 := by
  induction slots with
  | nil => rfl
  | cons slot slots ih =>
    cases slot with
    | none => simpa [entries] using ih (Option.map_eq_none_iff.mp h)
    | some e =>
      simp only [freeSlot] at h
      split at h
      · cases h
      · next hne => simpa [entries, hne] using ih (Option.map_eq_none_iff.mp h)

/-- What is registered gives one of its entries back. -/
theorem unregisterFs_registered {p : Port} (h : entries lfs p.registry ≠ 0) :
    entries lfs (p.unregisterFs lfs).registry + 1 = entries lfs p.registry ∧
      (p.unregisterFs lfs).default = if p.default = some lfs then none else p.default := by
  unfold Port.unregisterFs
  cases hfree : freeSlot lfs p.registry with
  | none => exact absurd (entries_of_freeSlot hfree) h
  | some registry =>
    have hcount := entries_freeSlot lfs hfree
    rw [if_pos rfl] at hcount
    exact ⟨hcount.symm, rfl⟩

end Slots

namespace Mount

variable {s : Mount} {io : MountIo}

theorem inv_start (others : List (Option (Nat × String))) (default : Option Nat) :
    Inv (start others default) := by
  refine ⟨rfl, ?_, ?_⟩
  · simp only [start, entries, List.countP_map]
    refine List.countP_eq_zero.mpr fun slot _ => ?_
    cases slot <;> simp
  · cases default <;> simp [start]

theorem agreed_of_inv (h : Inv s) : Agreed s := by
  refine ⟨by rw [h.live], ?_⟩
  rw [h.default, h.entries]
  cases s.mounted <;> simp

/-! ## Mounting and unmounting -/

theorem inv_ensureCtx (h : Inv s) (io : MountIo) : Inv (s.ensureCtx io).2 := by
  unfold ensureCtx
  split
  · exact h
  · split
    · exact ⟨h.live, h.entries, h.default⟩
    · exact h

theorem ensureCtx_eq (s : Mount) (io : MountIo) : (s.ensureCtx io).2.mounted = s.mounted ∧
    (s.ensureCtx io).2.formats = s.formats := by
  unfold ensureCtx
  split
  · exact ⟨rfl, rfl⟩
  · split <;> exact ⟨rfl, rfl⟩

theorem inv_formatted (n : Nat) (h : Inv s) (hm : s.mounted = false) :
    Inv { s with live := false, formats := n } :=
  ⟨hm.symm, h.entries, h.default⟩

/-- The registration succeeds as a whole or is taken back. -/
theorem registerLfs_spec (h : Inv s) (hm : s.mounted = false) :
    Inv { s with live := true }.registerLfs.2 ∧
      ({ s with live := true }.registerLfs.1 = true ↔
        { s with live := true }.registerLfs.2.mounted = true) ∧
      { s with live := true }.registerLfs.2.formats = s.formats := by
  have hzero : entries .spiffs s.port.registry = 0 := by rw [h.entries, hm]; rfl
  unfold registerLfs Port.registerFs
  cases htake : takeSlot ⟨.spiffs, "/spiffs"⟩ s.port.registry with
  | none => exact ⟨⟨hm.symm, h.entries, h.default⟩, by simp [hm], rfl⟩
  | some registry =>
    refine ⟨⟨rfl, ?_, by simp [Port.setDefault]⟩, by simp, rfl⟩
    have hcount := entries_takeSlot .spiffs htake
    simpa [Port.setDefault, hzero] using hcount

theorem inv_unmountLfs (h : Inv s) : Inv s.unmountLfs ∧ s.unmountLfs.mounted = false := by
  unfold unmountLfs
  cases hm : s.mounted with
  | false => exact ⟨h, hm⟩
  | true =>
    have hone : entries .spiffs s.port.registry = 1 := by rw [h.entries, hm]; rfl
    have hdefault := h.default.mpr hm
    have hregistered : entries .spiffs s.port.registry ≠ 0 := by omega
    obtain ⟨hcount, hnone⟩ := unregisterFs_registered hregistered
    refine ⟨⟨rfl, ?_, ?_⟩, rfl⟩
    · show entries .spiffs (s.port.unregisterFs .spiffs).registry = 0
      omega
    · show (s.port.unregisterFs .spiffs).default = some .spiffs ↔ false = true
      rw [hnone, if_pos hdefault]
      simp

theorem mountLfs_spec (h : Inv s) (formatOnFail : Bool) (io : MountIo) :
    Inv (s.mountLfs formatOnFail io).2 ∧ s.Honest (.begin formatOnFail io) := by
  unfold Honest mountLfs
  cases hm : s.mounted with
  | true => exact ⟨h, by simp [hm], fun _ => rfl⟩
  | false =>
    have hctx := inv_ensureCtx h io
    obtain ⟨hmounted, hformats⟩ := ensureCtx_eq s io
    rw [hm] at hmounted
    simp only [Bool.false_eq_true, if_false]
    rw [← hformats]
    generalize s.ensureCtx io = r at hctx hmounted ⊢
    obtain ⟨ok, s⟩ := r
    cases ok with
    | false => exact ⟨hctx, by simpa using hmounted, fun _ => rfl⟩
    | true =>
      dsimp only at hctx hmounted ⊢
      split
      · obtain ⟨hinv, hiff, hf⟩ := registerLfs_spec hctx hmounted
        exact ⟨hinv, hiff, fun _ => hf⟩
      · split
        · exact ⟨inv_formatted _ hctx hmounted, by simpa using hmounted, fun _ => rfl⟩
        · next hformat =>
          have hnot : formatOnFail ≠ false := by simpa using hformat
          have hformatted := inv_formatted (s.formats + 1) hctx hmounted
          split
          · exact ⟨hformatted, by simpa using hmounted, fun h => absurd h hnot⟩
          · split
            · exact ⟨hformatted, by simpa using hmounted, fun h => absurd h hnot⟩
            · obtain ⟨hinv, hiff, -⟩ := registerLfs_spec hformatted hmounted
              exact ⟨hinv, hiff, fun h => absurd h hnot⟩

theorem inv_formatLfs (h : Inv s) (io : MountIo) : Inv (s.formatLfs io).2 := by
  obtain ⟨hun, hm⟩ := inv_unmountLfs h
  have hctx := inv_ensureCtx hun io
  have hmounted := (ensureCtx_eq s.unmountLfs io).1.trans hm
  unfold formatLfs
  generalize s.unmountLfs.ensureCtx io = r at hctx hmounted ⊢
  obtain ⟨ok, s⟩ := r
  cases ok with
  | false => exact hctx
  | true => exact inv_formatted _ hctx hmounted

/-! ## Other file systems -/

theorem inv_register (h : Inv s) (n : Nat) (mountPoint : String) :
    Inv (s.step (.register n mountPoint)) := by
  simp only [step, Port.registerFs]
  split
  · exact h
  · next registry htake =>
    refine ⟨h.live, ?_, ?_⟩
    · have hcount := entries_takeSlot .spiffs htake
      rw [if_neg (by simp)] at hcount
      exact hcount.trans h.entries
    · rw [← h.default]
      cases hd : s.port.default <;> simp

theorem inv_unregister (h : Inv s) (n : Nat) : Inv (s.step (.unregister n)) := by
  simp only [step, Port.unregisterFs]
  split
  · exact h
  · next registry hfree =>
    refine ⟨h.live, ?_, ?_⟩
    · have hcount := entries_freeSlot .spiffs hfree
      rw [if_neg (by simp)] at hcount
      exact hcount.symm.trans h.entries
    · rw [← h.default]
      dsimp only
      split
      · next hd => simp [hd]
      · exact Iff.rfl

/-! ## Runs -/

/-- **Step**: every call keeps the invariant, and says what it has done. -/
theorem inv_step (s : Mount) (a : MountLabel) (h : Inv s) : Inv (s.step a) ∧ s.Honest a := by
  cases a with
  | begin formatOnFail io => exact mountLfs_spec h formatOnFail io
  | finish =>
    refine ⟨(inv_unmountLfs h).1, ?_⟩
    show s.unmountLfs.formats = s.formats
    unfold unmountLfs
    split <;> rfl
  | format io => exact ⟨inv_formatLfs h io, trivial⟩
  | register n mountPoint => exact ⟨inv_register h n mountPoint, trivial⟩
  | unregister n => exact ⟨inv_unregister h n, trivial⟩

/-- **Mount**: in every run the three places agree after each call, `begin` returns true if and only
if SPIFFS is mounted then, and only `format` and `begin(true)` format. -/
theorem agreed_always (others : List (Option (Nat × String))) (default : Option Nat)
    (labels : List MountLabel) : Along step Agreed (start others default) labels ∧
      Meets step Honest (start others default) labels := by
  have hinv : Along step Inv (start others default) labels :=
    along_of_meets (fun s a h (_ : True) => (inv_step s a h).1) (inv_start others default)
      (meets_of_forall (fun _ _ => trivial) _ _)
  refine ⟨hinv.mono fun _ => agreed_of_inv, ?_⟩
  exact Meets.mono (fun s a h => (inv_step s a h).2) hinv.meets

end Mount

end Bl616cl.Fs
