import Mathlib.Data.Finset.Dedup
import Bl616cl.Runtime.Patches

/-!
# The cache key of the SDK runtime

`cache_key` hashes what is meant to determine the runtime, and a later build with the same key uses
the cached one. Two invocations with one key are compared by everything that the build and the
staging read; `keySound_iff` says what the key leaves out.

The options that change neither the key nor the build (`--out`, `--cache-dir`, `--force`,
`--keep-work`) are left out.
-/

namespace Bl616cl.Runtime

/-- `PROBE_FILES`. -/
inductive ProbeFile where
  | makefile | mainC | cmakeLists | defconfig | freeRTOSConfig | mbedtlsSampleConfig | usbConfig
  deriving DecidableEq, Repr

/-- The probe files whose hash is in the material. -/
def ProbeFile.keyed : ProbeFile → Bool
  | defconfig | freeRTOSConfig | mbedtlsSampleConfig => true
  | makefile | mainC | cmakeLists | usbConfig => false

/-- An entry of `patches.json`. -/
structure ManifestEntry where
  file : String
  root : String
  obsolete : Bool

/-- What is read of the platform tree. -/
structure Platform where
  /-- The files of `tools/runtime_bundle` that are copied to the probe directory. -/
  probeFile : ProbeFile → List UInt8
  builder : List UInt8
  generator : List UInt8
  patchesJson : List ManifestEntry
  patchFile : String → List UInt8
  /-- The first line that the chip's compiler prints for `--version`. -/
  toolchainVersion : String → String

structure Invocation (Sdk : Type*) where
  platform : Platform
  sdk : Sdk
  chip : String
  board : String
  noPatches : Bool
  /-- The archive that `BOUFFALO_BLE_CONTROLLER_LIB` points to. -/
  controllerLib : Option (List UInt8)

/-- The dictionary that is dumped and hashed. -/
structure Material (Hash Fingerprint : Type*) where
  schema : Nat
  builder : Hash
  generator : Hash
  chip : String
  board : String
  sdk : Fingerprint
  defconfig : Hash
  freertosConfig : Hash
  mbedtlsConfig : Hash
  patches : Finset (String × Hash)
  extraLibs : Option (String × Hash)
  toolchain : String

/-- Everything the build and the staging read. -/
structure BuildInputs (Sdk : Type*) where
  probe : ProbeFile → List UInt8
  /-- The patches that are applied, in their order. -/
  patches : List PatchEntry
  chip : String
  board : String
  extraLibs : Option (String × List UInt8)
  toolchain : String
  sdk : Sdk

/-- `RUNTIME_SCHEMA`. -/
def runtimeSchema : Nat := 1

/-- The functions that the builder calls on files and on the SDK tree. -/
structure Builder (Sdk Hash Fingerprint Key : Type*) extends PatchTool Sdk where
  sha256File : List UInt8 → Hash
  sdkFingerprint : Sdk → Fingerprint
  /-- The hash of the material's JSON text. -/
  keyOf : Material Hash Fingerprint → Key
  /-- `CONFIG_BTBLECONTROLLER_LIB` of a defconfig. -/
  controllerVariant : List UInt8 → Option String
  /-- The SDK has an archive of this name. -/
  ships : Sdk → String → Bool

/-- `PatchSet.entries`. -/
def Platform.entries (p : Platform) : List PatchEntry :=
  (p.patchesJson.filter fun m => !m.obsolete).map fun m => ⟨m.file, m.root, p.patchFile m.file⟩

theorem Platform.contents_eq {p : Platform} {e : PatchEntry} (he : e ∈ p.entries) :
    e.contents = p.patchFile e.file := by
  obtain ⟨m, -, rfl⟩ := List.mem_map.mp he
  rfl

/-- A list of entries of a platform is told by their files and roots. -/
theorem Platform.entries_eq_map (p : Platform) {es : List PatchEntry}
    (h : ∀ e ∈ es, e ∈ p.entries) :
    es = (es.map fun e => (e.file, e.root)).map fun n => ⟨n.1, n.2, p.patchFile n.1⟩ := by
  have hsame : ∀ e ∈ es, (⟨e.file, e.root, p.patchFile e.file⟩ : PatchEntry) = id e := by
    intro e he
    rw [← Platform.contents_eq (h e he)]
    rfl
  rw [List.map_map]
  exact ((List.map_congr_left hsame).trans (List.map_id es)).symm

namespace Builder

variable {Sdk Hash Fingerprint Key : Type*} [DecidableEq Hash]
  (B : Builder Sdk Hash Fingerprint Key) (i j : Invocation Sdk)

/-- `none` where it raises. -/
def resolveExtraLibs : Option (Option (String × List UInt8)) :=
  match B.controllerVariant (i.platform.probeFile .defconfig) with
  | none => some none
  | some variant =>
    let name := "libbtblecontroller_" ++ i.chip ++ "_" ++ variant ++ ".a"
    if B.ships i.sdk name then some none
    else match i.controllerLib with
      | some archive => some (some (name, archive))
      | none => none

def patchMaterial : Finset (String × Hash) :=
  (i.platform.entries.map fun e => (e.file, B.sha256File e.contents)).toFinset

def material (extraLibs : Option (String × List UInt8)) : Material Hash Fingerprint where
  schema := runtimeSchema
  builder := B.sha256File i.platform.builder
  generator := B.sha256File i.platform.generator
  chip := i.chip
  board := i.board
  sdk := B.sdkFingerprint i.sdk
  defconfig := B.sha256File (i.platform.probeFile .defconfig)
  freertosConfig := B.sha256File (i.platform.probeFile .freeRTOSConfig)
  mbedtlsConfig := B.sha256File (i.platform.probeFile .mbedtlsSampleConfig)
  patches := B.patchMaterial i
  extraLibs := extraLibs.map fun lib => (lib.1, B.sha256File lib.2)
  toolchain := i.platform.toolchainVersion i.chip

/-- The key, where the invocation gets to it. -/
def cacheKey : Option Key := (B.resolveExtraLibs i).map fun libs => B.keyOf (B.material i libs)

/-- The patches that the build finds applied. -/
def appliedPatches : List PatchEntry :=
  if i.noPatches then [] else B.applied i.platform.entries i.sdk

def buildInputs : BuildInputs Sdk where
  probe := i.platform.probeFile
  patches := B.appliedPatches i
  chip := i.chip
  board := i.board
  extraLibs := (B.resolveExtraLibs i).getD none
  toolchain := i.platform.toolchainVersion i.chip
  sdk := i.sdk

/-! ## What the key covers -/

/-- The two invocations have one key. -/
def SameKey : Prop := ∃ key, B.cacheKey i = some key ∧ B.cacheKey j = some key

/-- With one key they build from the same. -/
def KeySound : Prop := B.SameKey i j → B.buildInputs i = B.buildInputs j

/-- They agree on what is not in the material. -/
structure AgreeOnRest : Prop where
  probe : ∀ f : ProbeFile, f.keyed = false → i.platform.probeFile f = j.platform.probeFile f
  patches : (B.appliedPatches i).map (fun e => (e.file, e.root)) =
    (B.appliedPatches j).map fun e => (e.file, e.root)

/-- The hash functions have no collisions, and the fingerprint identifies the SDK tree. -/
structure CollisionFree : Prop where
  sha256File : Function.Injective B.sha256File
  sdkFingerprint : Function.Injective B.sdkFingerprint
  keyOf : Function.Injective B.keyOf

variable {B} {i j}

theorem material_eq (hB : B.CollisionFree) (h : B.SameKey i j) : ∃ libs libs',
    B.resolveExtraLibs i = some libs ∧ B.resolveExtraLibs j = some libs' ∧
      B.material i libs = B.material j libs' := by
  obtain ⟨key, hi, hj⟩ := h
  obtain ⟨libs, hlibs, hkey⟩ := Option.map_eq_some_iff.mp hi
  obtain ⟨libs', hlibs', hkey'⟩ := Option.map_eq_some_iff.mp hj
  exact ⟨libs, libs', hlibs, hlibs', hB.keyOf (hkey.trans hkey'.symm)⟩

theorem patchFile_eq (hB : B.CollisionFree) (h : B.patchMaterial i = B.patchMaterial j)
    {e : PatchEntry} (he : e ∈ i.platform.entries) :
    i.platform.patchFile e.file = j.platform.patchFile e.file := by
  have hmem : (e.file, B.sha256File e.contents) ∈ B.patchMaterial j := by
    rw [← h, patchMaterial, List.mem_toFinset]
    exact List.mem_map.mpr ⟨e, he, rfl⟩
  rw [patchMaterial, List.mem_toFinset] at hmem
  obtain ⟨e', he', heq⟩ := List.mem_map.mp hmem
  obtain ⟨hfile, hhash⟩ := Prod.mk.inj heq
  rw [← Platform.contents_eq he, ← hB.sha256File hhash, Platform.contents_eq he', hfile]

omit [DecidableEq Hash] in
theorem mem_entries_of_applied {e : PatchEntry} (he : e ∈ B.appliedPatches i) :
    e ∈ i.platform.entries := by
  unfold appliedPatches at he
  split at he
  · cases he
  · exact PatchTool.mem_applied he

theorem patches_eq (hB : B.CollisionFree) (hmat : B.patchMaterial i = B.patchMaterial j)
    (hnames : (B.appliedPatches i).map (fun e => (e.file, e.root)) =
      (B.appliedPatches j).map fun e => (e.file, e.root)) :
    B.appliedPatches i = B.appliedPatches j := by
  rw [i.platform.entries_eq_map fun e he => mem_entries_of_applied he,
    j.platform.entries_eq_map fun e he => mem_entries_of_applied he, ← hnames]
  refine List.map_congr_left fun n hn => ?_
  obtain ⟨e, he, rfl⟩ := List.mem_map.mp hn
  simp only [patchFile_eq hB hmat (mem_entries_of_applied he)]

omit [DecidableEq Hash] in
theorem libs_eq (hB : B.CollisionFree) {libs libs' : Option (String × List UInt8)}
    (h : libs.map (fun lib => (lib.1, B.sha256File lib.2)) =
      libs'.map fun lib => (lib.1, B.sha256File lib.2)) : libs = libs' := by
  refine Option.map_injective (fun lib lib' heq => ?_) h
  obtain ⟨hname, hhash⟩ := Prod.mk.inj heq
  exact Prod.ext hname (hB.sha256File hhash)

/-- **Cache key**: two invocations with one key build from the same inputs exactly if they agree on
`Makefile`, `main.c`, `CMakeLists.txt` and `usb_config.h`, and on the patches applied, their roots
and their order. -/
theorem keySound_iff (B : Builder Sdk Hash Fingerprint Key) (hB : B.CollisionFree)
    (i j : Invocation Sdk) : B.KeySound i j ↔ (B.SameKey i j → B.AgreeOnRest i j) := by
  constructor
  · intro h hkey
    have hinputs := h hkey
    refine ⟨fun f _ => congrFun (congrArg BuildInputs.probe hinputs) f, ?_⟩
    exact congrArg (List.map fun e => (e.file, e.root)) (congrArg BuildInputs.patches hinputs)
  · intro h hkey
    obtain ⟨hprobe, hnames⟩ := h hkey
    obtain ⟨libs, libs', hlibs, hlibs', hmat⟩ := material_eq hB hkey
    have hfile : i.platform.probeFile = j.platform.probeFile := by
      funext f
      cases f with
      | defconfig => exact hB.sha256File (congrArg Material.defconfig hmat)
      | freeRTOSConfig => exact hB.sha256File (congrArg Material.freertosConfig hmat)
      | mbedtlsSampleConfig => exact hB.sha256File (congrArg Material.mbedtlsConfig hmat)
      | makefile => exact hprobe .makefile rfl
      | mainC => exact hprobe .mainC rfl
      | cmakeLists => exact hprobe .cmakeLists rfl
      | usbConfig => exact hprobe .usbConfig rfl
    have hpatches := patches_eq hB (congrArg Material.patches hmat) hnames
    have hchip : i.chip = j.chip := congrArg Material.chip hmat
    have hboard : i.board = j.board := congrArg Material.board hmat
    have htool : i.platform.toolchainVersion i.chip = j.platform.toolchainVersion j.chip :=
      congrArg Material.toolchain hmat
    rw [hchip] at htool
    have hsdk : i.sdk = j.sdk := hB.sdkFingerprint (congrArg Material.sdk hmat)
    have hlibsEq : libs = libs' := libs_eq hB (congrArg Material.extraLibs hmat)
    simp only [buildInputs, hfile, hpatches, hchip, hboard, htool, hsdk, hlibs, hlibs', hlibsEq]

/-- A builder for trees of one file, with hash functions that forget nothing. -/
def plain : Builder Nat (List UInt8) Nat (Material (List UInt8) Nat) where
  toPatchTool := PatchTool.oneFile
  sha256File := id
  sdkFingerprint := id
  keyOf := id
  controllerVariant _ := none
  ships _ _ := true

theorem plain_collisionFree : plain.CollisionFree :=
  ⟨Function.injective_id, Function.injective_id, Function.injective_id⟩

/-- A build of a platform with these patches. -/
def sketch (patchesJson : List ManifestEntry) (noPatches : Bool) : Invocation Nat where
  platform := {
    probeFile := fun f => if f.keyed then [67, 79, 78, 70] else [105, 110, 116]
    builder := [100, 101, 102]
    generator := [105, 109]
    patchesJson := patchesJson
    patchFile := fun name => if name = "fix.patch" then [45, 48, 10, 43, 49] else [45, 50]
    toolchainVersion := fun _ => "gcc 10.2.0" }
  sdk := 0
  chip := "bl616cl"
  board := "bl616cldk"
  noPatches := noPatches
  controllerLib := none

def fix : ManifestEntry := ⟨"fix.patch", "components", false⟩

def dropped : ManifestEntry := ⟨"old.patch", "components", true⟩

/-- An obsolete entry is neither in the key nor in the build, which applies the other patch. -/
theorem keySound_obsolete :
    plain.SameKey (sketch [fix, dropped] false) (sketch [fix] false) ∧
      (plain.appliedPatches (sketch [fix] false)).map (fun e => e.file) = ["fix.patch"] ∧
        plain.KeySound (sketch [fix, dropped] false) (sketch [fix] false) :=
  ⟨⟨_, rfl, rfl⟩, rfl, (keySound_iff plain plain_collisionFree (sketch [fix, dropped] false)
    (sketch [fix] false)).mpr fun _ => ⟨fun _ _ => rfl, rfl⟩⟩

/-- `--no-patches` is not in the key. -/
theorem noPatches_shares_key : ¬ ∀ B : Builder Nat (List UInt8) Nat (Material (List UInt8) Nat),
    B.CollisionFree → ∀ i j : Invocation Nat, B.KeySound i j := by
  intro h
  have hinputs := h plain plain_collisionFree (sketch [fix] true) (sketch [fix] false)
    ⟨_, rfl, rfl⟩
  exact absurd (congrArg (fun inputs => inputs.patches.length) hinputs) (by decide)

end Builder

end Bl616cl.Runtime
