import Mathlib.Logic.Relation
import Bl616cl.Runtime.Cache
import Bl616cl.Runtime.Patches

/-!
# Two builders at once

Two runs of `build_sdk_runtime.py`, both with the patch set, on one platform root, SDK tree and
cache directory. A step is one operation of one run on the shared tree or cache; there is no lock.

The `--out` directories and the warning about residue are not part of the model, nor is an archive
that `BOUFFALO_BLE_CONTROLLER_LIB` names.
-/

namespace Bl616cl.Runtime.Concurrent

open Bl616cl.Lib

/-- The files of a directory. -/
abbrev Files := String → Option (List UInt8)

/-- What the SDK build or `stage_sdk_runtime` does next. -/
inductive Turn where
  | write (path : String) (contents : List UInt8)
  | finished
  | failed

/-- The platform root, and what the two runs compute; the runs are told apart by a flag. -/
structure Site (Tree Key : Type) extends PatchTool Tree where
  entries : List PatchEntry
  /-- `PROBE_FILES` with their contents. -/
  template : List (String × List UInt8)
  force : Bool → Bool
  keepWork : Bool → Bool
  /-- `cache_key`, on the SDK tree and the probe directory. -/
  key : Bool → Tree → Files → Key
  /-- `make` in the work directory. -/
  make : Bool → Tree → Files → Turn
  /-- `stage_sdk_runtime`, on the probe, work and staging directories. -/
  stage : Bool → Tree → Files → Files → Files → Turn

inductive Phase (Key : Type) where
  | idle
  /-- `write_probe_dir`; the flag says that the next file is open and still empty. -/
  | probing (opened : Bool) (todo : List (String × List UInt8))
  | keying
  | lookup (k : Key)
  /-- `rmtree` and `mkdir` of the staging directory. -/
  | clearing (k : Key)
  /-- `make_work_dir`. -/
  | preparing (k : Key)
  /-- `verify_clean`. -/
  | verifying (k : Key)
  | applying (k : Key) (todo : List PatchEntry)
  | making (k : Key)
  | staging (k : Key)
  /-- `rmtree` of the entry, and `rename`. -/
  | replacing (k : Key)
  /-- `materialize`, after a hit or a rename. -/
  | published (k : Key) (hit : Bool)
  | pruning (k : Key) (hit : Bool) (stale : List (Name Key))
  /-- `rmtree` of the staging directory after an exception. -/
  | discarding (k : Key)
  | restoring (k : Key) (todo : List PatchEntry)
  | finished

namespace Phase

variable {Key : Type}

/-- The parts of a run that write to the cache or to the SDK tree. -/
def exclusive : Phase Key → Bool
  | idle | keying | lookup _ | finished => false
  | _ => true

/-- The probe directory may be in pieces. -/
def breaking : Phase Key → Bool
  | probing _ _ | pruning _ _ (.probe :: _) => true
  | _ => false

/-- From `write_probe_dir` to the cache decision. -/
def deciding : Phase Key → Bool
  | keying | lookup _ => true
  | _ => false

/-- The end of a run that is a cache hit. -/
def hit : Phase Key → Bool
  | published _ hit | pruning _ hit _ => hit
  | _ => false

/-- The directory that an `rmtree` is taking away. -/
def target : Phase Key → Option (Name Key)
  | clearing k | discarding k => some (.staging k)
  | replacing k => some (.entry k)
  | pruning _ _ (name :: _) => some name
  | _ => none

end Phase

/-- An entry that has been published, and the SDK trees there were from the start of its build to
the end of its staging. -/
structure Publication (Tree Key : Type) where
  builder : Bool
  key : Key
  files : Files
  seen : List Tree

structure World (Tree Key : Type) where
  tree : Tree
  dirs : Name Key → Option Files
  work : Key → Option Files
  phase : Bool → Phase Key
  seen : Bool → List Tree
  published : List (Publication Tree Key)

/-- What a run does in a step: its next operation, or an `rmtree` unlinks a file, or one that
ignores errors leaves what it cannot unlink, or `prune_cache` finds the directories that are stale,
or an exception comes up. -/
inductive Act (Key : Type) where
  | go
  | unlink (path : String)
  | giveUp
  | list (stale : List (Name Key))
  | raise

namespace World

variable {Tree Key : Type} [DecidableEq Key] (S : Site Tree Key) (s : World Tree Key) (b : Bool)

def goTo (phase : Phase Key) : World Tree Key :=
  { s with phase := Function.update s.phase b phase }

def put (name : Name Key) (dir : Option Files) : World Tree Key :=
  { s with dirs := Function.update s.dirs name dir }

def putWork (k : Key) (dir : Option Files) : World Tree Key :=
  { s with work := Function.update s.work k dir }

def setTree (tree : Tree) : World Tree Key := { s with tree := tree }

/-- A directory that a file is copied to is made if it is not there. -/
def files (name : Name Key) : Files := (s.dirs name).getD fun _ => none

def workFiles (k : Key) : Files := (s.work k).getD fun _ => none

def writeFile (name : Name Key) (path : String) (contents : List UInt8) : World Tree Key :=
  s.put name (some (Function.update (s.files name) path (some contents)))

def isHit (k : Key) : Bool :=
  !S.force b && (s.dirs (.entry k)).any fun f => (f "manifest.json").isSome

/-- `staging.rename(entry)`. -/
def rename (k : Key) : World Tree Key :=
  match s.dirs (.staging k) with
  | none => s.goTo b (.discarding k)
  | some files =>
    { ((s.put (.entry k) (some files)).put (.staging k) none).goTo b (.published k false) with
      published := ⟨b, k, files, s.seen b⟩ :: s.published }

/-- The body of the loop of `PatchSet.apply`. -/
def applyOne (k : Key) (e : PatchEntry) (es : List PatchEntry) : World Tree Key :=
  if !S.isDir s.tree e.root then s.goTo b (.discarding k)
  else match S.diffOf e s.tree with
    | some tree => (s.setTree tree).goTo b (.applying k es)
    | none =>
      match (S.diffOf e).symm s.tree with
      | some _ => s.goTo b (.applying k es)
      | none => s.goTo b (.discarding k)

/-- The body of the loop of `PatchSet.restore`. -/
def restoreNext (k : Key) (e : PatchEntry) (es : List PatchEntry) : World Tree Key :=
  let r := S.restoreOne e (s.tree, false)
  if r.2 then s.goTo b .finished else (s.setTree r.1).goTo b (.restoring k es)

def makeNext (k : Key) : World Tree Key :=
  match S.make b s.tree (s.workFiles k) with
  | .write path contents =>
    s.putWork k (some (Function.update (s.workFiles k) path (some contents)))
  | .finished => s.goTo b (.staging k)
  | .failed => s.goTo b (.discarding k)

def stageNext (k : Key) : World Tree Key :=
  match S.stage b s.tree (s.files .probe) (s.workFiles k) (s.files (.staging k)) with
  | .write path contents => s.writeFile (.staging k) path contents
  | .finished => s.goTo b (.replacing k)
  | .failed => s.goTo b (.discarding k)

def go : World Tree Key :=
  match s.phase b with
  | .idle => s.goTo b (.probing false S.template)
  | .probing _ [] => s.goTo b .keying
  | .probing false (x :: todo) =>
    (s.writeFile .probe x.1 []).goTo b (.probing true (x :: todo))
  | .probing true (x :: todo) =>
    (s.writeFile .probe x.1 x.2).goTo b (.probing false todo)
  | .keying => s.goTo b (.lookup (S.key b s.tree (s.files .probe)))
  | .lookup k => if s.isHit S b k then s.goTo b (.published k true) else s.goTo b (.clearing k)
  | .clearing k =>
    if (s.dirs (.staging k)).isSome then s.put (.staging k) none
    else (s.put (.staging k) (some fun _ => none)).goTo b (.preparing k)
  | .preparing k =>
    match s.dirs .probe with
    | none => s.goTo b .finished
    | some files => (s.putWork k (some files)).goTo b (.verifying k)
  | .verifying k =>
    match S.verifyClean S.entries s.tree with
    | some _ => s.goTo b (.discarding k)
    | none => s.goTo b (.applying k S.entries)
  | .applying k [] =>
    { s.goTo b (.making k) with seen := Function.update s.seen b [] }
  | .applying k (e :: es) => s.applyOne S b k e es
  | .making k => s.makeNext S b k
  | .staging k => s.stageNext S b k
  | .replacing k =>
    if (s.dirs (.entry k)).isSome then s.put (.entry k) none else s.rename b k
  | .published _ _ => s
  | .pruning k hit (name :: stale) => (s.put name none).goTo b (.pruning k hit stale)
  | .pruning _ true [] => s.goTo b .finished
  | .pruning k false [] => s.goTo b (.restoring k S.entries.reverse)
  | .discarding k => (s.put (.staging k) none).goTo b (.restoring k S.entries.reverse)
  | .restoring k (e :: es) => s.restoreNext S b k e es
  | .restoring k [] => (if S.keepWork b then s else s.putWork k none).goTo b .finished
  | .finished => s

def unlink (path : String) : World Tree Key :=
  match (s.phase b).target with
  | none => s
  | some name => s.put name ((s.dirs name).map fun f => Function.update f path none)

/-- Over an entry that is left in pieces the `rename` raises. -/
def giveUp : World Tree Key :=
  match s.phase b with
  | .replacing k => s.goTo b (.discarding k)
  | .pruning k hit (_ :: stale) => s.goTo b (.pruning k hit stale)
  | .discarding k => s.goTo b (.restoring k S.entries.reverse)
  | .restoring _ [] => s.goTo b .finished
  | _ => s

/-- An exception in the `try` block leads to its `except` clause, and before it to the end of the
run; `write_probe_dir` may leave a file of the probe directory empty then. The `except` clause
itself raises none, and neither does `PatchSet.restore`. -/
def raise : World Tree Key :=
  match s.phase b with
  | .verifying k | .applying k _ | .making k | .staging k | .replacing k | .published k false
  | .pruning k false _ => s.goTo b (.discarding k)
  | .probing _ _ | .keying | .lookup _ | .clearing _ | .preparing _ | .published _ true
  | .pruning _ true _ => s.goTo b .finished
  | .idle | .discarding _ | .restoring _ _ | .finished => s

def act : Act Key → World Tree Key
  | .go => s.go S b
  | .unlink path => s.unlink b path
  | .giveUp => s.giveUp S b
  | .list stale =>
    match s.phase b with
    | .published k hit => s.goTo b (.pruning k hit stale)
    | _ => s
  | .raise => s.raise b

/-- A build or a staging that is going on sees the tree there is. -/
def observe : World Tree Key :=
  { s with
    seen := fun c =>
      match s.phase c with
      | .making _ | .staging _ => s.tree :: s.seen c
      | _ => s.seen c }

def step (s : World Tree Key) (l : Bool × Act Key) : World Tree Key := (s.act S l.1 l.2).observe

/-- Two runs that have not started, on any cache directory. -/
def initial (tree : Tree) (dirs : Name Key → Option Files) (work : Key → Option Files) :
    World Tree Key :=
  ⟨tree, dirs, work, fun _ => .idle, fun _ => [], []⟩

/-- The exclusive parts of the two runs do not overlap, unless both runs are cache hits. -/
def Apart (s : World Tree Key) : Prop :=
  ((s.phase false).exclusive && (s.phase true).exclusive) = true →
    ((s.phase false).hit && (s.phase true).hit) = true

instance : Decidable s.Apart := inferInstanceAs (Decidable (_ → _))

/-- No run breaks off `write_probe_dir`, or the `rmtree` of the probe directory, while the other,
past its own `write_probe_dir`, has yet to decide about the cache. -/
def Unbroken (s : World Tree Key) : Bool × Act Key → Prop
  | (b, .raise) | (b, .giveUp) => (s.phase b).breaking = true → (s.phase !b).deciding = false
  | _ => True

instance (s : World Tree Key) (l : Bool × Act Key) : Decidable (s.Unbroken l) := by
  obtain ⟨b, a⟩ := l
  cases a <;> unfold Unbroken <;> infer_instance

end World

/-! ## What an undisturbed run stages -/

/-- One file is written. -/
def Wrote (next : Files → Turn) (f g : Files) : Prop :=
  ∃ path contents, next f = .write path contents ∧ g = Function.update f path (some contents)

/-- The steps from `f` finish with `g`. -/
def Finishes (next : Files → Turn) (f g : Files) : Prop :=
  Relation.ReflTransGen (Wrote next) f g ∧ next g = .finished

namespace Site

variable {Tree Key : Type} (S : Site Tree Key)

/-- The probe directory holds the template. -/
def HasTemplate (f : Files) : Prop := ∀ x ∈ S.template, f x.1 = some x.2

/-- The files that the run `b` stages when nothing disturbs it and the tree is `t`. -/
def Undisturbed (b : Bool) (t : Tree) (files : Files) : Prop :=
  ∃ probe work, S.HasTemplate probe ∧ Finishes (S.make b t) probe work ∧
    Finishes (S.stage b t probe work) (fun _ => none) files

/-- The patches apply one after the other from `t` to `u`, and none of those to come is contained
in the tree before. -/
inductive Applies : List PatchEntry → Tree → Tree → Prop
  | done {t} : Applies [] t t
  | applied {e es t t' u} :
      (∀ e' ∈ e :: es, S.isDir t e'.root = true ∧ (S.diffOf e').symm t = none) →
      S.diffOf e t = some t' → S.isDir t' e.root = true → Applies es t' u →
      Applies (e :: es) t u

/-- An entry is built and staged from the tree `t` throughout, and complete. -/
structure Whole (t : Tree) (r : Publication Tree Key) : Prop where
  seen : ∀ u ∈ r.seen, u = t
  files : S.Undisturbed r.builder t r.files

/-- Every entry published is whole, and the SDK tree is clean when both runs have finished. -/
structure Sound (clean patched : Tree) (s : World Tree Key) : Prop where
  published : ∀ r ∈ s.published, S.Whole patched r
  clean : (∀ b, s.phase b = .finished) → s.tree = clean

end Site

end Bl616cl.Runtime.Concurrent
