import Mathlib.Data.List.AList
import Mathlib.Tactic.Common
import Bl616cl.Lib.Run

/-!
# The runtime cache directory

Builder runs on one cache directory, one at a time, as single file-system operations; a run may
raise or be killed at any of them. A runtime is published by a rename and so appears complete, but
`shutil.rmtree` takes a published one away file by file, with its `manifest.json` at no particular
time. `hitsComplete_of_orderly` says when a cache hit is a complete runtime.

`materialize` removes what is at `--out` with `shutil.rmtree` as well, so the place of `--out` is
part of the model. The directory `work` is not, nor is what lies behind a link that `materialize`
makes deeper than in the cache root.
-/

namespace Bl616cl.Runtime

open Bl616cl.Lib

/-- The directories of the cache root besides `work`; `staging` has the suffix `.new`. -/
inductive Name (Key : Type) where
  | entry (k : Key)
  | staging (k : Key)
  | probe
  deriving DecidableEq

/-- Where `--out` lies, once the links in its path are followed. -/
inductive Out (Key : Type) where
  /-- Neither in the cache root, nor it or a directory above it. -/
  | apart
  /-- The cache root or a directory above it; nothing is left of the cache then. -/
  | above
  /-- A directory of the cache root. -/
  | dir (name : Name Key)
  /-- A path below one. -/
  | below (name : Name Key) (path : String)
  deriving DecidableEq

/-- A directory: its files, and what its `manifest.json` lists. -/
structure Dir (Hash : Type) where
  files : AList fun _ : String => List UInt8
  manifest : Option (List (String × Hash))

namespace Dir

variable {Hash : Type} (d : Dir Hash) (sha256 : List UInt8 → Hash)

def empty : Dir Hash := ⟨∅, none⟩

def isEmpty : Bool := d.files.keys.isEmpty && d.manifest.isNone

def copyFile (path : String) (contents : List UInt8) : Dir Hash :=
  { d with files := d.files.insert path contents }

/-- `none` is `manifest.json`. -/
def unlink : Option String → Dir Hash
  | none => { d with manifest := none }
  | some path => { d with files := d.files.erase path }

/-- The file dictionary that `stage_sdk_runtime` writes. -/
def listing : List (String × Hash) := d.files.entries.map fun f => (f.1, sha256 f.2)

def writeManifest : Dir Hash := { d with manifest := some (d.listing sha256) }

/-- A file of `src` as `copytree` copies it to the path `dst`; `none` is `manifest.json`. -/
def copyFrom (src : Dir Hash) (dst : String → String) : Option String → Dir Hash
  | none => { d with manifest := src.manifest }
  | some path =>
    match src.files.lookup path with
    | none => d
    | some contents => d.copyFile (dst path) contents

/-- Every file listed exists and has the hash. -/
def Complete : Prop :=
  ∀ m, d.manifest = some m → ∀ x ∈ m, ∃ c, d.files.lookup x.1 = some c ∧ sha256 c = x.2

end Dir

/-- What the builder is doing. -/
inductive Phase (Key : Type) where
  | idle
  /-- `write_probe_dir`. -/
  | probing (k : Key) (force : Bool)
  /-- `rmtree` of an old staging directory. -/
  | clearing (k : Key)
  /-- `make_work_dir`. -/
  | preparing (k : Key)
  /-- The build and `stage_sdk_runtime`. -/
  | staging (k : Key)
  /-- `rmtree` of the entry that is replaced. -/
  | replacing (k : Key)
  /-- `materialize`, after a hit or a rename. -/
  | published (k : Key) (hit : Bool)
  /-- The loop of `prune_cache`. -/
  | pruning (k : Key) (hit : Bool) (stale : List (Name Key))
  /-- `rmtree` of the staging directory after an exception. -/
  | cleanup (k : Key)

/-- The directory of the cache root whose files an `rmtree` is unlinking. -/
def Phase.target {Key : Type} : Phase Key → Option (Name Key)
  | clearing k | cleanup k => some (.staging k)
  | replacing k => some (.entry k)
  | pruning _ _ (name :: _) => some name
  | _ => none

inductive Label (Key : Type) where
  | start (k : Key) (force : Bool) (out : Out Key)
  | writeProbe (path : String) (contents : List UInt8)
  | copyFile (path : String) (contents : List UInt8)
  /-- An `rmtree` unlinks a file of its directory; `none` is `manifest.json`. -/
  | unlink (path : Option String)
  /-- It removes the directory, which is empty. -/
  | rmdir
  /-- The `rmtree` of `--out` unlinks a file. -/
  | unlinkOut (name : Name Key) (path : Option String)
  /-- It removes a directory of the cache root, which is empty. -/
  | rmdirOut (name : Name Key)
  /-- `materialize` makes the parent of `--out`, or unlinks an old link, or makes the link. -/
  | link
  /-- It cannot make a link, and copies a file. -/
  | copyOut (path : Option String)
  /-- `prune_cache` sorts the directories it finds. -/
  | list (entries : List (Name Key))
  /-- The builder goes on to its next phase. -/
  | next
  /-- It raises an exception. -/
  | raise
  | kill

structure Cache (Key Hash : Type) where
  dirs : Name Key → Option (Dir Hash)
  /-- What is a link to an entry instead. -/
  links : Name Key → Option Key
  phase : Phase Key
  /-- `--out` of the run. -/
  out : Out Key
  /-- The `rmtree` of the phase has unlinked a file. -/
  begun : Bool

namespace Cache

variable {Key Hash : Type} [DecidableEq Key] (sha256 : List UInt8 → Hash)

def initial : Cache Key Hash := ⟨fun _ => none, fun _ => none, .idle, .apart, false⟩

variable (s : Cache Key Hash)

def put (name : Name Key) (dir : Option (Dir Hash)) : Cache Key Hash :=
  { s with dirs := Function.update s.dirs name dir }

def goTo (phase : Phase Key) : Cache Key Hash := { s with phase := phase, begun := false }

/-- The directory that a name stands for; at most the given number of links is followed. -/
def follow : Nat → Name Key → Option (Name Key)
  | n, name =>
    match s.links name, n with
    | none, _ => some name
    | some _, 0 => none
    | some k, n + 1 => follow n (.entry k)

/-- The kernel follows 40 links. -/
def real (name : Name Key) : Option (Name Key) := s.follow 40 name

def dir (name : Name Key) : Option (Dir Hash) := (s.real name).bind s.dirs

/-- `entry.is_dir() and not args.force and (entry / "manifest.json").is_file()`. -/
def isHit (k : Key) (force : Bool) : Bool :=
  !force && (s.dir (.entry k)).any fun d => d.manifest.isSome

/-- `staging.mkdir`, which raises on a link that leads nowhere. -/
def mkdirStaging (k : Key) : Cache Key Hash :=
  if (s.links (.staging k)).isSome then s.goTo .idle
  else (s.put (.staging k) (some .empty)).goTo (.preparing k)

/-- `staging.rename(entry)`: it takes an entry that is not there or empty. -/
def rename (k : Key) : Cache Key Hash :=
  if (s.links (.entry k)).isNone && (s.dirs (.entry k)).all Dir.isEmpty &&
      (s.dirs (.staging k)).isSome then
    ((s.put (.entry k) (s.dirs (.staging k))).put (.staging k) none).goTo (.published k false)
  else s.goTo (.cleanup k)

/-- `rmtree` refuses a link. -/
def unlink (path : Option String) : Cache Key Hash :=
  match s.phase.target with
  | none => s
  | some name =>
    match s.links name, s.dirs name with
    | none, some d => { s.put name (some (d.unlink path)) with begun := true }
    | _, _ => s

def rmdir : Cache Key Hash :=
  match s.phase.target with
  | none => s
  | some name =>
    if (s.links name).isNone && (s.dirs name).any Dir.isEmpty then s.put name none else s

/-! ## The place of `--out` -/

/-- The `rmtree` of `--out` gets to the file; a link it would not enter. -/
def inOut (name : Name Key) (path : Option String) : Bool :=
  match s.out with
  | .apart => false
  | .above => (s.links name).isNone
  | .dir n => n = name && (s.links name).isNone
  | .below n sub =>
    s.real n = some name && path.any fun p => (sub ++ "/").toList.isPrefixOf p.toList

/-- It gets to the directory itself. -/
def dirInOut (name : Name Key) : Bool :=
  match s.out with
  | .apart | .below _ _ => false
  | .above => (s.links name).isNone
  | .dir n => n = name && (s.links name).isNone

def unlinkOut (name : Name Key) (path : Option String) : Cache Key Hash :=
  match s.dirs name with
  | some d => if s.inOut name path then s.put name (some (d.unlink path)) else s
  | none => s

def rmdirOut (name : Name Key) : Cache Key Hash :=
  if s.dirInOut name && (s.dirs name).any Dir.isEmpty then s.put name none else s

/-- `out.parent.mkdir`, `out.unlink` or `out.symlink_to(entry)`. -/
def link (k : Key) : Cache Key Hash :=
  match s.out with
  | .apart | .above => s
  | .dir name =>
    match s.links name, s.dirs name with
    | none, none => { s with links := Function.update s.links name (some k) }
    | none, some _ => s
    | some _, _ =>
      if s.real name = s.real (.entry k) then s
      else { s with links := Function.update s.links name none }
  | .below name _ =>
    match s.links name, s.dirs name with
    | none, none => s.put name (some .empty)
    | _, _ => s

/-- A step of `shutil.copytree(entry, out)`. -/
def copyOut (k : Key) (path : Option String) : Cache Key Hash :=
  match s.dir (.entry k) with
  | none => s
  | some src =>
    match s.out with
    | .apart | .above => s
    | .dir name =>
      if (s.links name).isSome then s
      else s.put name (some (((s.dirs name).getD .empty).copyFrom src (fun path => path) path))
    | .below name sub =>
      match s.real name, path with
      | some name, some path =>
        s.put name (some (((s.dirs name).getD .empty).copyFrom src
          (fun path => sub ++ "/" ++ path) (some path)))
      | _, _ => s

/-! ## Steps -/

def writeProbe (path : String) (contents : List UInt8) : Cache Key Hash :=
  match s.real .probe with
  | none => s
  | some name => s.put name (some (((s.dirs name).getD .empty).copyFile path contents))

def next : Cache Key Hash :=
  match s.phase with
  | .probing k force =>
    if s.isHit k force then s.goTo (.published k true)
    else if (s.dir (.staging k)).isSome then s.goTo (.clearing k)
    else s.mkdirStaging k
  | .clearing k => if (s.dir (.staging k)).isSome then s else s.mkdirStaging k
  | .preparing k => s.goTo (.staging k)
  | .staging k =>
    (s.put (.staging k) ((s.dirs (.staging k)).map fun d => d.writeManifest sha256)).goTo
      (.replacing k)
  | .replacing k => s.rename k
  | .pruning k hit (_ :: stale) => s.goTo (.pruning k hit stale)
  | .pruning _ _ [] | .cleanup _ => s.goTo .idle
  | .idle | .published _ _ => s

def raise : Cache Key Hash :=
  match s.phase with
  | .staging k | .replacing k | .published k false | .pruning k false _ => s.goTo (.cleanup k)
  | .probing _ _ | .clearing _ | .preparing _ | .published _ true | .pruning _ true _ =>
    s.goTo .idle
  | .idle | .cleanup _ => s

def step : Label Key → Cache Key Hash
  | .start k force out =>
    match s.phase with
    | .idle => { s.goTo (.probing k force) with out := out }
    | _ => s
  | .writeProbe path contents =>
    match s.phase with
    | .probing _ _ => s.writeProbe path contents
    | _ => s
  | .copyFile path contents =>
    match s.phase with
    | .staging k => s.put (.staging k) ((s.dirs (.staging k)).map fun d => d.copyFile path contents)
    | _ => s
  | .unlink path => s.unlink path
  | .rmdir => s.rmdir
  | .unlinkOut name path =>
    match s.phase with
    | .published _ _ => s.unlinkOut name path
    | _ => s
  | .rmdirOut name =>
    match s.phase with
    | .published _ _ => s.rmdirOut name
    | _ => s
  | .link =>
    match s.phase with
    | .published k _ => s.link k
    | _ => s
  | .copyOut path =>
    match s.phase with
    | .published k _ => s.copyOut k path
    | _ => s
  | .list entries =>
    match s.phase with
    | .published k hit =>
      s.goTo (.pruning k hit ((entries.drop 3).filter fun name => name ≠ .entry k))
    | _ => s
  | .next => s.next sha256
  | .raise => s.raise
  | .kill => s.goTo .idle

/-- Between two runs, and within one but during its own `rmtree`, every cache hit is complete. -/
def HitsComplete : Prop :=
  s.phase.target = none → ∀ k d, s.dir (.entry k) = some d → d.Complete sha256

/-- An `rmtree` of an entry has unlinked a file and left `manifest.json`. -/
def halfRemoved : Bool :=
  s.begun && match s.phase.target with
    | some (.entry k) => (s.dirs (.entry k)).any fun d => d.manifest.isSome
    | _ => false

/-- `--out` is not given a place in or above the cache, and no `rmtree` of an entry is broken off,
or given up by `ignore_errors`, between its first file and `manifest.json`. -/
def Orderly (s : Cache Key Hash) : Label Key → Prop
  | .start _ _ out => out = .apart
  | .next | .raise | .kill => s.halfRemoved = false
  | _ => True

instance (s : Cache Key Hash) (l : Label Key) : Decidable (s.Orderly l) := by
  cases l <;> unfold Orderly <;> infer_instance

/-- `prune_cache` finds the directories that there are. -/
def Listed (s : Cache Key Hash) : Label Key → Prop
  | .list entries => entries.Nodup ∧ ∀ name, name ∈ entries ↔ s.dirs name ≠ none
  | _ => True

/-- A staging directory has no manifest until all its files are there. -/
def StagingOk (dirs : Name Key → Option (Dir Hash)) : Phase Key → Prop
  | .preparing k | .staging k => ∃ d, dirs (.staging k) = some d ∧ d.manifest = none
  | .replacing k =>
    ∃ d, dirs (.staging k) = some d ∧ d.manifest = some (d.listing sha256)
  | _ => True

/-- The invariant over runs: an entry is complete but while its own `rmtree` is under way. -/
structure Inv (s : Cache Key Hash) : Prop where
  entry : ∀ k d, s.dirs (.entry k) = some d →
    d.Complete sha256 ∨ s.begun = true ∧ s.phase.target = some (.entry k)
  staging : StagingOk sha256 s.dirs s.phase
  links : ∀ name, s.links name = none
  out : s.out = .apart

/-- No entry is in pieces. -/
def Settled : Prop := ∀ k d, s.dirs (.entry k) = some d → d.Complete sha256

end Cache

/-! ## Directories -/

namespace Dir

variable {Hash : Type} {d : Dir Hash} {sha256 : List UInt8 → Hash}

theorem complete_listing (h : d.manifest = some (d.listing sha256)) : d.Complete sha256 := by
  intro m hm x hx
  obtain rfl := Option.some.inj (h.symm.trans hm)
  obtain ⟨f, hf, rfl⟩ := List.mem_map.mp hx
  exact ⟨f.2, AList.mem_lookup_iff.mpr hf, rfl⟩

theorem complete_of_none (h : d.manifest = none) : d.Complete sha256 := by
  intro m hm
  rw [h] at hm
  cases hm

end Dir

namespace Cache

variable {Key Hash : Type} [DecidableEq Key] {sha256 : List UInt8 → Hash} {s : Cache Key Hash}
  {d : Dir Hash}

/-! ## Directories and links -/

omit [DecidableEq Key] in
theorem Inv.real (h : s.Inv sha256) (name : Name Key) : s.real name = some name := by
  unfold Cache.real follow
  rw [h.links]

omit [DecidableEq Key] in
theorem Inv.dir (h : s.Inv sha256) (name : Name Key) : s.dir name = s.dirs name := by
  rw [Cache.dir, h.real, Option.bind_some]

omit [DecidableEq Key] in
/-- An `rmtree` that is not in the middle of an entry leaves none in pieces. -/
theorem Inv.settled (h : s.Inv sha256) (hhalf : s.halfRemoved = false) : s.Settled sha256 := by
  intro k d hd
  rcases h.entry k d hd with hcomplete | ⟨hbegun, htarget⟩
  · exact hcomplete
  · have hnone : d.manifest = none := by
      simpa [halfRemoved, hbegun, htarget, hd] using hhalf
    exact Dir.complete_of_none hnone

omit [DecidableEq Key] in
theorem Inv.settled_of_target (h : s.Inv sha256) (htarget : s.phase.target = none) :
    s.Settled sha256 :=
  h.settled (by simp [halfRemoved, htarget])

/-! ## Runs -/

omit [DecidableEq Key] in
theorem inv_initial : (initial : Cache Key Hash).Inv sha256 :=
  ⟨fun k d hd => by (cases hd), trivial, fun _ => rfl, rfl⟩

omit [DecidableEq Key] in
theorem Inv.goTo (h : s.Inv sha256) (hsettled : s.Settled sha256) {phase : Phase Key}
    (hstaging : StagingOk sha256 s.dirs phase) : (s.goTo phase).Inv sha256 :=
  ⟨fun k d hd => .inl (hsettled k d hd), hstaging, h.links, h.out⟩

theorem Settled.put (h : s.Settled sha256) {name : Name Key} (hname : ∀ k, name ≠ .entry k)
    (dir : Option (Dir Hash)) : (s.put name dir).Settled sha256 := by
  intro k d hd
  have hentry : Function.update s.dirs name dir (.entry k) = some d := hd
  rw [Function.update_of_ne (hname k).symm] at hentry
  exact h k d hentry

theorem Inv.put (h : s.Inv sha256) (hsettled : s.Settled sha256) {name : Name Key}
    (hname : ∀ k, name ≠ .entry k) {dir : Option (Dir Hash)} {phase : Phase Key}
    (hstaging : StagingOk sha256 (Function.update s.dirs name dir) phase) :
    ((s.put name dir).goTo phase).Inv sha256 :=
  ⟨fun k d hd => .inl (hsettled.put hname dir k d hd), hstaging, h.links, h.out⟩

theorem Inv.mkdirStaging (h : s.Inv sha256) (hsettled : s.Settled sha256) (k : Key) :
    (s.mkdirStaging k).Inv sha256 := by
  rw [Cache.mkdirStaging, h.links, if_neg (by simp)]
  exact h.put hsettled (fun k' e => by cases e) ⟨.empty, Function.update_self .., rfl⟩

theorem Inv.rename (h : s.Inv sha256) (hsettled : s.Settled sha256) {k : Key}
    (hphase : s.phase = .replacing k) : (s.rename k).Inv sha256 := by
  have hstaging := h.staging
  rw [hphase] at hstaging
  obtain ⟨d, hd, hlisting⟩ := hstaging
  unfold Cache.rename
  split
  · refine ⟨fun k' d' hd' => .inl ?_, trivial, h.links, h.out⟩
    have hentry : Function.update (Function.update s.dirs (.entry k) (s.dirs (.staging k)))
        (.staging k) none (.entry k') = some d' := hd'
    rw [Function.update_of_ne (fun e => by cases e)] at hentry
    by_cases hk : k' = k
    · subst hk
      rw [Function.update_self, hd] at hentry
      obtain rfl := Option.some.inj hentry
      exact Dir.complete_listing hlisting
    · rw [Function.update_of_ne (fun e => hk (Name.entry.inj e))] at hentry
      exact hsettled k' d' hentry
  · exact h.goTo hsettled trivial

/-- An `rmtree` does not look at the staging directory of its own run before it is written. -/
theorem stagingOk_target {name : Name Key} (h : s.Inv sha256)
    (htarget : s.phase.target = some name) (dir : Option (Dir Hash)) :
    StagingOk sha256 (Function.update s.dirs name dir) s.phase := by
  have hstaging := h.staging
  cases hphase : s.phase with
  | replacing k =>
    rw [hphase] at hstaging htarget
    obtain rfl := Option.some.inj htarget
    obtain ⟨d, hd, hlisting⟩ := hstaging
    exact ⟨d, (Function.update_of_ne (fun e => by cases e) ..).trans hd, hlisting⟩
  | preparing k =>
    rw [hphase] at htarget
    cases htarget
  | staging k =>
    rw [hphase] at htarget
    cases htarget
  | _ => trivial

theorem Inv.unlink (h : s.Inv sha256) (path : Option String) : (s.unlink path).Inv sha256 := by
  unfold Cache.unlink
  split
  · exact h
  · next name htarget =>
    rw [h.links]
    cases hdir : s.dirs name with
    | none => exact h
    | some d =>
      refine ⟨fun k d' hd' => ?_, stagingOk_target h htarget _, h.links, h.out⟩
      have hentry : Function.update s.dirs name (some (d.unlink path)) (.entry k) = some d' := hd'
      by_cases hname : Name.entry k = name
      · exact .inr ⟨rfl, hname ▸ htarget⟩
      · rw [Function.update_of_ne hname] at hentry
        rcases h.entry k d' hentry with hcomplete | ⟨-, hother⟩
        · exact .inl hcomplete
        · exact absurd (Option.some.inj (hother.symm.trans htarget)) hname

theorem Inv.rmdir (h : s.Inv sha256) : s.rmdir.Inv sha256 := by
  unfold Cache.rmdir
  split
  · exact h
  · next name htarget =>
    split
    · refine ⟨fun k d hd => ?_, stagingOk_target h htarget _, h.links, h.out⟩
      have hentry : Function.update s.dirs name none (.entry k) = some d := hd
      by_cases hname : Name.entry k = name
      · subst hname
        rw [Function.update_self] at hentry
        cases hentry
      · rw [Function.update_of_ne hname] at hentry
        exact h.entry k d hentry
    · exact h

/-! ### What `materialize` does apart from the cache -/

theorem Inv.unlinkOut (h : s.Inv sha256) (name : Name Key) (path : Option String) :
    s.unlinkOut name path = s := by
  cases hdir : s.dirs name <;> simp [Cache.unlinkOut, inOut, h.out, hdir]

theorem Inv.rmdirOut (h : s.Inv sha256) (name : Name Key) : s.rmdirOut name = s := by
  simp [Cache.rmdirOut, dirInOut, h.out]

theorem Inv.link (h : s.Inv sha256) (k : Key) : s.link k = s := by
  simp [Cache.link, h.out]

theorem Inv.copyOut (h : s.Inv sha256) (k : Key) (path : Option String) :
    s.copyOut k path = s := by
  cases hdir : s.dir (.entry k) <;> simp [Cache.copyOut, h.out, hdir]

/-! ### The phases -/

theorem Inv.next (h : s.Inv sha256) (hhalf : s.halfRemoved = false) :
    (s.next sha256).Inv sha256 := by
  have hstaging := h.staging
  have hsettled := h.settled hhalf
  cases hphase : s.phase with
  | probing k force =>
    simp only [Cache.next, hphase]
    split
    · exact h.goTo hsettled trivial
    · split
      · exact h.goTo hsettled trivial
      · exact h.mkdirStaging hsettled k
  | clearing k =>
    simp only [Cache.next, hphase]
    split
    · exact h
    · exact h.mkdirStaging hsettled k
  | preparing k =>
    rw [hphase] at hstaging
    simp only [Cache.next, hphase]
    exact h.goTo hsettled hstaging
  | staging k =>
    rw [hphase] at hstaging
    obtain ⟨d, hd, hnone⟩ := hstaging
    simp only [Cache.next, hphase, hd]
    exact h.put hsettled (fun k' e => by cases e)
      ⟨d.writeManifest sha256, Function.update_self .., rfl⟩
  | replacing k =>
    simp only [Cache.next, hphase]
    exact h.rename hsettled hphase
  | pruning k hit stale =>
    cases stale with
    | nil =>
      simp only [Cache.next, hphase]
      exact h.goTo hsettled trivial
    | cons name stale =>
      simp only [Cache.next, hphase]
      exact h.goTo hsettled trivial
  | cleanup k =>
    simp only [Cache.next, hphase]
    exact h.goTo hsettled trivial
  | idle => simpa only [Cache.next, hphase] using h
  | published k hit => simpa only [Cache.next, hphase] using h

omit [DecidableEq Key] in
theorem Inv.raise (h : s.Inv sha256) (hhalf : s.halfRemoved = false) : s.raise.Inv sha256 := by
  have hsettled := h.settled hhalf
  unfold Cache.raise
  split
  all_goals first | exact h.goTo hsettled trivial | exact h

theorem Inv.writeProbe (h : s.Inv sha256) {k : Key} {force : Bool}
    (hphase : s.phase = .probing k force) (path : String) (contents : List UInt8) :
    (s.writeProbe path contents).Inv sha256 := by
  have hsettled := h.settled_of_target (by rw [hphase]; rfl)
  rw [Cache.writeProbe, h.real]
  refine ⟨fun k d hd => .inl (hsettled.put (fun k' e => by cases e) _ k d hd), ?_, h.links, h.out⟩
  show StagingOk sha256 _ s.phase
  rw [hphase]
  trivial

theorem Inv.copyFile (h : s.Inv sha256) (path : String) (contents : List UInt8) :
    (s.step sha256 (.copyFile path contents)).Inv sha256 := by
  simp only [Cache.step]
  split
  · next k hphase =>
    have hsettled := h.settled_of_target (by rw [hphase]; rfl)
    have hstaging := h.staging
    rw [hphase] at hstaging
    obtain ⟨d, hd, hnone⟩ := hstaging
    refine ⟨fun k' d' hd' => .inl (hsettled.put (fun k e => by cases e) _ k' d' hd'), ?_, h.links,
      h.out⟩
    show StagingOk sha256 _ s.phase
    rw [hphase, hd]
    exact ⟨_, Function.update_self .., hnone⟩
  · exact h

theorem Inv.step (h : s.Inv sha256) {l : Label Key} (hc : s.Orderly l) :
    (s.step sha256 l).Inv sha256 := by
  cases l with
  | start k force out =>
    simp only [Cache.step]
    split
    · next hphase =>
      have hsettled := h.settled_of_target (by rw [hphase]; rfl)
      exact ⟨fun k d hd => .inl (hsettled k d hd), trivial, h.links, hc⟩
    · exact h
  | writeProbe path contents =>
    simp only [Cache.step]
    split
    · next k force hphase => exact h.writeProbe hphase path contents
    · exact h
  | copyFile path contents => exact h.copyFile path contents
  | unlink path => exact h.unlink path
  | rmdir => exact h.rmdir
  | unlinkOut name path =>
    simp only [Cache.step, h.unlinkOut]
    split <;> exact h
  | rmdirOut name =>
    simp only [Cache.step, h.rmdirOut]
    split <;> exact h
  | link =>
    simp only [Cache.step, h.link]
    split <;> exact h
  | copyOut path =>
    simp only [Cache.step, h.copyOut]
    split <;> exact h
  | list entries =>
    simp only [Cache.step]
    split
    · next k hit hphase => exact h.goTo (h.settled_of_target (by rw [hphase]; rfl)) trivial
    · exact h
  | next => exact h.next hc
  | raise => exact h.raise hc
  | kill => exact h.goTo (h.settled hc) trivial

omit [DecidableEq Key] in
theorem Inv.hitsComplete (h : s.Inv sha256) : s.HitsComplete sha256 := by
  intro htarget k d hd
  rw [h.dir] at hd
  exact h.settled_of_target htarget k d hd

/-- **Cache hits**: over any sequence of runs, each failing or killed anywhere, every cache hit is a
complete runtime, as long as `--out` is kept away from the cache and no `rmtree` of an entry is
broken off between its first file and `manifest.json`. -/
theorem hitsComplete_of_orderly (sha256 : List UInt8 → Hash) (ls : List (Label Key))
    (h : Meets (step sha256) Orderly (initial : Cache Key Hash) ls) :
    Along (step sha256) (HitsComplete sha256) (initial : Cache Key Hash) ls :=
  (along_of_meets (I := Inv sha256) (fun _ _ h hc => h.step hc) inv_initial h).mono
    fun _ h => h.hitsComplete

/-- A build of one file that is published, and a forced one up to its `rmtree` of the old entry. -/
def forcedRebuild : List (Label Nat) :=
  [.start 0 false .apart, .next, .next, .copyFile "lib/libc.a" [1], .next, .next, .link,
    .list [.entry 0], .next,
    .start 0 true .apart, .next, .next, .copyFile "lib/libc.a" [1], .next]

/-- The `rmtree` is killed when it has unlinked `manifest.json` and the file; the next run finds no
hit and publishes the runtime again. -/
theorem hitsComplete_killed_late : Along (step id) (HitsComplete id)
    (initial : Cache Nat (List UInt8))
    (forcedRebuild ++ [.unlink (some "lib/libc.a"), .unlink none, .kill,
      .start 0 false .apart, .next, .unlink (some "lib/libc.a"), .unlink none, .rmdir, .next, .next,
      .copyFile "lib/libc.a" [2], .next, .rmdir, .next, .link, .list [.entry 0], .next]) :=
  hitsComplete_of_orderly id _ (by decide)

/-- The `rmtree` is killed when it has unlinked the file only. -/
theorem forced_rebuild_killed : ¬ ∀ ls : List (Label Nat),
    Meets (step id) Listed (initial : Cache Nat (List UInt8)) ls →
      Along (step id) (HitsComplete id) (initial : Cache Nat (List UInt8)) ls := by
  intro h
  have hrun := h (forcedRebuild ++ [.unlink (some "lib/libc.a"), .kill]) (by
    refine ⟨trivial, trivial, trivial, trivial, trivial, trivial, trivial, ⟨by decide, ?_⟩, trivial,
      trivial, trivial, trivial, trivial, trivial, trivial, trivial, trivial⟩
    rintro ((_ | k) | (_ | k) | _)
    · exact iff_of_true (List.mem_singleton.mpr rfl) nofun
    · exact iff_of_false (by simp) (not_not.mpr rfl)
    · exact iff_of_false (by simp) (not_not.mpr rfl)
    · exact iff_of_false (by simp) (not_not.mpr rfl)
    · exact iff_of_false (by simp) (not_not.mpr rfl))
  obtain ⟨c, hc, -⟩ := hrun.last rfl 0 ⟨∅, some [("lib/libc.a", [1])]⟩ rfl _ rfl ("lib/libc.a", [1])
    (List.mem_singleton.mpr rfl)
  cases hc

end Cache

end Bl616cl.Runtime
