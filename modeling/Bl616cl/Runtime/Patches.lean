import Mathlib.Data.PEquiv
import Mathlib.Tactic.Common

/-!
# The platform patch set

`PatchSet` of `build_sdk_runtime.py`. A diff is a partial bijection of source trees: it applies
where its pre-image matches and backwards where its post-image does. `restore` is not told what
`apply` has done and decides by the tree in front of it; `restore_eq_iff` says which trees it takes
to a given one, and `restored_of_restorable` on which patch sets and trees the two together change
nothing.
-/

namespace Bl616cl.Runtime

/-- An entry of `patches.json` that is not obsolete, with the contents of its file. -/
structure PatchEntry where
  file : String
  root : String
  contents : List UInt8
  deriving DecidableEq, Repr

/-- The `patch` and `git` programs on a source tree. -/
structure PatchTool (Tree : Type*) where
  /-- What a diff does in a root directory. -/
  diff : String → List UInt8 → Tree ≃. Tree
  isDir : Tree → String → Bool
  /-- `git status` shows modifications of files that the patch touches. -/
  modified : Tree → PatchEntry → Bool

inductive PatchError where
  | locallyModified (file : String)
  | rootMissing (root : String)
  | outOfSync (file : String)
  deriving DecidableEq, Repr

namespace PatchTool

variable {Tree : Type*} (P : PatchTool Tree)

def diffOf (e : PatchEntry) : Tree ≃. Tree := P.diff e.root e.contents

def verifyClean (entries : List PatchEntry) (t : Tree) : Option PatchError :=
  (entries.find? (P.modified t)).map fun e => .locallyModified e.file

/-- The loop of `apply`: the tree it leaves, and what it raises. -/
def applyFrom : List PatchEntry → Tree → Tree × Option PatchError
  | [], t => (t, none)
  | e :: es, t =>
    if !P.isDir t e.root then (t, some (.rootMissing e.root))
    else match P.diffOf e t with
      | some t' => applyFrom es t'
      | none =>
        match (P.diffOf e).symm t with
        | some _ => applyFrom es t
        | none => (t, some (.outOfSync e.file))

def apply (entries : List PatchEntry) (t : Tree) : Tree × Option PatchError :=
  match P.verifyClean entries t with
  | some error => (t, some error)
  | none => P.applyFrom entries t

/-- The patches that the loop really applies. -/
def appliedFrom : List PatchEntry → Tree → List PatchEntry
  | [], _ => []
  | e :: es, t =>
    if !P.isDir t e.root then []
    else match P.diffOf e t with
      | some t' => e :: appliedFrom es t'
      | none =>
        match (P.diffOf e).symm t with
        | some _ => appliedFrom es t
        | none => []

def applied (entries : List PatchEntry) (t : Tree) : List PatchEntry :=
  match P.verifyClean entries t with
  | some _ => []
  | none => P.appliedFrom entries t

/-- The body of the loop of `restore`, whose flag says that `subprocess.run` has raised because
its working directory is missing. -/
def restoreOne (e : PatchEntry) (r : Tree × Bool) : Tree × Bool :=
  if r.2 then r
  else if !P.isDir r.1 e.root then (r.1, true)
  else match (P.diffOf e).symm r.1 with
    | some t' => (t', false)
    | none => r

/-- The last entry comes first. -/
def restore (entries : List PatchEntry) (t : Tree) : Tree × Bool :=
  entries.foldr P.restoreOne (t, false)

/-- The `try` and `finally` of `main`. -/
def build (entries : List PatchEntry) (t : Tree) : Tree :=
  (P.restore entries (P.apply entries t).1).1

/-! ## What the two loops do -/

/-- `u` is `t` with patches laid over it in their order; a patch may be left out where it does not
match in reverse. The flag says that a patch with a missing root is among them; those before it are
left out as they are. -/
inductive LaidOver : Bool → List PatchEntry → Tree → Tree → Prop
  | done {t} : LaidOver false [] t t
  | laid {e es t t' u} : P.diffOf e t = some t' → P.isDir t' e.root = true →
      LaidOver false es t' u → LaidOver false (e :: es) t u
  | leftOut {e es t u} : (P.diffOf e).symm t = none → P.isDir t e.root = true →
      LaidOver false es t u → LaidOver false (e :: es) t u
  | missing {e es t u} : P.isDir t e.root = false → LaidOver false es t u →
      LaidOver true (e :: es) t u
  | before {e es t u} : LaidOver true es t u → LaidOver true (e :: es) t u

/-- `restore` finds nothing to revert in `t`: no patch that it gets to matches in reverse. The flag
says that it raises at a patch with a missing root. -/
inductive Untouched : Bool → List PatchEntry → Tree → Prop
  | done {t} : Untouched false [] t
  | leftOut {e es t} : P.isDir t e.root = true → (P.diffOf e).symm t = none →
      Untouched false es t → Untouched false (e :: es) t
  | missing {e es t} : P.isDir t e.root = false → Untouched false es t → Untouched true (e :: es) t
  | before {e es t} : Untouched true es t → Untouched true (e :: es) t

/-- No patch of the manifest is in the tree already: each applies, up to one that does not, and from
there on none matches in reverse. Only a patch that `restore` does not get to, because it raises at
a missing root behind it, may be contained. -/
inductive Clean : Bool → List PatchEntry → Tree → Prop
  | done {t} : Clean false [] t
  | applied {e es t t'} : P.isDir t e.root = true → P.diffOf e t = some t' →
      P.isDir t' e.root = true → Clean false es t' → Clean false (e :: es) t
  | contained {e es t} : P.isDir t e.root = true → P.diffOf e t = none →
      (P.diffOf e).symm t ≠ none → Clean true es t → Clean true (e :: es) t
  | raised {stopped e es t} :
      (P.isDir t e.root = true → P.diffOf e t = none ∧ (P.diffOf e).symm t = none) →
      Untouched P stopped (e :: es) t → Clean stopped (e :: es) t

/-- What a patch set has to be for a tree: where `git` reports no modified file, clean, and else
nothing that `restore` would revert. -/
inductive Restorable (es : List PatchEntry) (t : Tree) : Prop
  | tried {stopped} : (∀ e ∈ es, P.modified t e = false) → P.Clean stopped es t → Restorable es t
  | refused {e stopped} : e ∈ es → P.modified t e = true → P.Untouched stopped es t →
      Restorable es t

/-- The patch leaves a mark on the trees it makes, which the patches behind it do not touch: none
of them undoes or repeats it. -/
def Marks (e : PatchEntry) (es : List PatchEntry) (mark : Tree → Prop) : Prop :=
  (∀ t t', P.diffOf e t = some t' → ¬mark t ∧ mark t') ∧
    ∀ e' ∈ es, ∀ t t', P.diffOf e' t = some t' → (mark t ↔ mark t')

def Marked : List PatchEntry → Prop
  | [] => True
  | e :: es => (∃ mark, P.Marks e es mark) ∧ Marked es

variable {P} {e : PatchEntry} {es : List PatchEntry} {t u s : Tree} {stopped : Bool}

theorem mem_appliedFrom (h : e ∈ P.appliedFrom es t) : e ∈ es := by
  induction es generalizing t with
  | nil => exact h
  | cons e' es ih =>
    rw [appliedFrom] at h
    split at h
    · cases h
    · split at h
      · rcases List.mem_cons.mp h with rfl | hrest
        · exact List.mem_cons_self
        · exact List.mem_cons_of_mem e' (ih hrest)
      · split at h
        · exact List.mem_cons_of_mem e' (ih h)
        · cases h

theorem mem_applied (h : e ∈ P.applied es t) : e ∈ es := by
  unfold applied at h
  split at h
  · cases h
  · exact mem_appliedFrom h

/-- The trees that `restore` takes to `t`. -/
theorem restore_eq_iff : P.restore es u = (t, stopped) ↔ P.LaidOver stopped es t u := by
  induction es generalizing t stopped with
  | nil =>
    constructor
    · rintro ⟨⟩
      exact .done
    · rintro ⟨⟩
      rfl
  | cons e es ih =>
    have hcons : P.restore (e :: es) u = P.restoreOne e (P.restore es u) := rfl
    rw [hcons]
    constructor
    · intro h
      obtain ⟨v, stopped', hr⟩ : ∃ v stopped', P.restore es u = (v, stopped') := ⟨_, _, rfl⟩
      have hv := ih.mp hr
      rw [hr] at h
      cases stopped' with
      | true =>
        obtain ⟨rfl, rfl⟩ : v = t ∧ true = stopped := by simpa [restoreOne] using h
        exact .before hv
      | false =>
        cases hdir : P.isDir v e.root with
        | false =>
          obtain ⟨rfl, rfl⟩ : v = t ∧ true = stopped := by simpa [restoreOne, hdir] using h
          exact .missing hdir hv
        | true =>
          cases hrev : (P.diffOf e).symm v with
          | some v' =>
            obtain ⟨rfl, rfl⟩ : v' = t ∧ false = stopped := by
              simpa [restoreOne, hdir, hrev] using h
            exact .laid ((P.diffOf e).eq_some_iff.mp hrev) hdir hv
          | none =>
            obtain ⟨rfl, rfl⟩ : v = t ∧ false = stopped := by
              simpa [restoreOne, hdir, hrev] using h
            exact .leftOut hrev hdir hv
    · intro h
      cases h with
      | laid hfwd hdir hv =>
        have hrev := (P.diffOf e).eq_some_iff.mpr hfwd
        simp [ih.mpr hv, restoreOne, hdir, hrev]
      | leftOut hrev hdir hv => simp [ih.mpr hv, restoreOne, hdir, hrev]
      | missing hdir hv => simp [ih.mpr hv, restoreOne, hdir]
      | before hv => simp [ih.mpr hv, restoreOne]

theorem laidOver_refl
    (h : ∀ e ∈ es, P.isDir t e.root = true ∧ (P.diffOf e).symm t = none) :
    P.LaidOver false es t t := by
  induction es with
  | nil => exact .done
  | cons e es ih =>
    obtain ⟨hdir, hrev⟩ := h e List.mem_cons_self
    exact .leftOut hrev hdir (ih fun e' he' => h e' (List.mem_cons_of_mem e he'))

theorem verifyClean_none_iff : P.verifyClean es t = none ↔ ∀ e ∈ es, P.modified t e = false := by
  simp [verifyClean]

/-! ## The way there and back -/

theorem Untouched.laidOver (h : P.Untouched stopped es t) : P.LaidOver stopped es t t := by
  induction h with
  | done => exact .done
  | leftOut hdir hrev _ ih => exact .leftOut hrev hdir ih
  | missing hdir _ ih => exact .missing hdir ih
  | before _ ih => exact .before ih

theorem applyFrom_raised
    (hraise : P.isDir t e.root = true → P.diffOf e t = none ∧ (P.diffOf e).symm t = none) :
    (P.applyFrom (e :: es) t).1 = t := by
  cases hdir : P.isDir t e.root with
  | false => simp [applyFrom, hdir]
  | true =>
    obtain ⟨hfwd, hrev⟩ := hraise hdir
    simp [applyFrom, hdir, hfwd, hrev]

theorem applyFrom_contained (hdir : P.isDir t e.root = true) (hfwd : P.diffOf e t = none)
    (hrev : (P.diffOf e).symm t ≠ none) : P.applyFrom (e :: es) t = P.applyFrom es t := by
  obtain ⟨t', ht'⟩ := Option.ne_none_iff_exists'.mp hrev
  simp [applyFrom, hdir, hfwd, ht']

theorem applyFrom_applied (hdir : P.isDir t e.root = true) (hfwd : P.diffOf e t = some u) :
    P.applyFrom (e :: es) t = P.applyFrom es u := by
  simp [applyFrom, hdir, hfwd]

/-- What the loop of `apply` leaves of a clean tree is that tree with patches laid over it. -/
theorem Clean.laidOver (h : P.Clean stopped es t) :
    P.LaidOver stopped es t (P.applyFrom es t).1 := by
  induction h with
  | done => exact .done
  | applied hdir hfwd hdir' _ ih =>
    rw [applyFrom_applied hdir hfwd]
    exact .laid hfwd hdir' ih
  | contained hdir hfwd hrev _ ih =>
    rw [applyFrom_contained hdir hfwd hrev]
    exact .before ih
  | raised hraise huntouched =>
    rw [applyFrom_raised hraise]
    exact huntouched.laidOver

theorem Restorable.build (h : P.Restorable es t) : P.build es t = t := by
  cases h with
  | tried hclean h =>
    rw [PatchTool.build, apply, verifyClean_none_iff.mpr hclean]
    exact congrArg Prod.fst (restore_eq_iff.mpr h.laidOver)
  | @refused e stopped he hmod h =>
    obtain ⟨error, herror⟩ : ∃ error, P.verifyClean es t = some error := by
      refine Option.ne_none_iff_exists'.mp fun hnone => ?_
      rw [verifyClean_none_iff.mp hnone e he] at hmod
      cases hmod
    rw [PatchTool.build, apply, herror]
    exact congrArg Prod.fst (restore_eq_iff.mpr h.laidOver)

/-! ## Patch sets whose patches can be told apart -/

section

variable {mark : Tree → Prop}

theorem Marks.laidOver (hm : P.Marks e es mark) (h : P.LaidOver stopped es t u) :
    mark t ↔ mark u := by
  induction h with
  | done => exact Iff.rfl
  | @laid e' es t t' u hfwd _ _ ih =>
    exact (hm.2 e' List.mem_cons_self t t' hfwd).trans
      (ih ⟨hm.1, fun e' he' => hm.2 e' (List.mem_cons_of_mem _ he')⟩)
  | leftOut _ _ _ ih | missing _ _ ih | before _ ih =>
    exact ih ⟨hm.1, fun e' he' => hm.2 e' (List.mem_cons_of_mem _ he')⟩

theorem Marks.applyFrom (hm : P.Marks e es mark) (t : Tree) :
    mark t ↔ mark (P.applyFrom es t).1 := by
  induction es generalizing t with
  | nil => exact Iff.rfl
  | cons e' es ih =>
    have hrest : P.Marks e es mark := ⟨hm.1, fun e' he' => hm.2 e' (List.mem_cons_of_mem _ he')⟩
    rw [PatchTool.applyFrom]
    split
    · exact Iff.rfl
    · split
      · next t' hfwd => exact (hm.2 e' List.mem_cons_self t t' hfwd).trans (ih hrest t')
      · split
        · exact ih hrest t
        · exact Iff.rfl

/-- A tree that patches leave as it is has nothing in it to revert. -/
theorem Marked.untouched (hm : P.Marked es) (h : P.LaidOver stopped es t t) :
    P.Untouched stopped es t := by
  induction es generalizing stopped with
  | nil =>
    cases h
    exact .done
  | cons e es ih =>
    obtain ⟨⟨mark, hmark⟩, hrest⟩ := hm
    cases h with
    | laid hfwd hdir hlaid =>
      obtain ⟨hno, hyes⟩ := hmark.1 _ _ hfwd
      exact absurd ((hmark.laidOver hlaid).mp hyes) hno
    | leftOut hrev hdir hlaid => exact .leftOut hdir hrev (ih hrest hlaid)
    | missing hdir hlaid => exact .missing hdir (ih hrest hlaid)
    | before hlaid => exact .before (ih hrest hlaid)

/-- What the loop of `apply` leaves leads back to the tree only if that was clean. -/
theorem Marked.clean (hm : P.Marked es) (h : P.LaidOver stopped es t (P.applyFrom es t).1) :
    P.Clean stopped es t := by
  induction es generalizing t stopped with
  | nil =>
    cases h
    exact .done
  | cons e es ih =>
    have hmarked := hm
    obtain ⟨⟨mark, hmark⟩, hrest⟩ := hm
    by_cases hraise :
        P.isDir t e.root = true → P.diffOf e t = none ∧ (P.diffOf e).symm t = none
    · rw [applyFrom_raised hraise] at h
      exact .raised hraise (hmarked.untouched h)
    · obtain ⟨hdir, hmatch⟩ := Classical.not_imp.mp hraise
      cases hfwd : P.diffOf e t with
      | some t' =>
        -- the mark of the patch is on what `apply` leaves, so it has been taken back
        rw [applyFrom_applied hdir hfwd] at h
        obtain ⟨hno, hyes⟩ := hmark.1 t t' hfwd
        have hend := (hmark.applyFrom t').mp hyes
        cases h with
        | laid hfwd' hdir' hlaid =>
          obtain rfl := Option.some.inj (hfwd.symm.trans hfwd')
          exact .applied hdir hfwd hdir' (ih hrest hlaid)
        | leftOut _ _ hlaid | missing _ hlaid | before hlaid =>
          exact absurd ((hmark.laidOver hlaid).mpr hend) hno
      | none =>
        have hrev : (P.diffOf e).symm t ≠ none := fun hnone => hmatch ⟨hfwd, hnone⟩
        rw [applyFrom_contained hdir hfwd hrev] at h
        cases h with
        | laid hfwd' _ _ => rw [hfwd] at hfwd'; cases hfwd'
        | leftOut hnone _ _ => exact absurd hnone hrev
        | missing hmissing _ => rw [hdir] at hmissing; cases hmissing
        | before hlaid => exact .contained hdir hfwd hrev (ih hrest hlaid)

theorem Marked.restorable (hm : P.Marked es) (h : P.build es t = t) : P.Restorable es t := by
  have hlaid : P.LaidOver (P.restore es (P.apply es t).1).2 es t (P.apply es t).1 :=
    restore_eq_iff.mp (Prod.ext h rfl)
  cases hv : P.verifyClean es t with
  | none =>
    rw [apply, hv] at hlaid
    exact .tried (verifyClean_none_iff.mp hv) (hm.clean hlaid)
  | some error =>
    have hmod : ¬∀ e ∈ es, P.modified t e = false := fun hall => by
      rw [verifyClean_none_iff.mpr hall] at hv
      cases hv
    obtain ⟨e, he, hne⟩ : ∃ e ∈ es, P.modified t e ≠ false := by
      simpa only [not_forall, exists_prop] using hmod
    rw [apply, hv] at hlaid
    exact .refused he (Bool.eq_true_of_not_eq_false hne) (hm.untouched hlaid)

end

/-- **Restoring**: a build leaves the tree as it was if no patch of the manifest is in it already,
and, where the patches can be told apart, only then. -/
theorem restored_of_restorable (P : PatchTool Tree) (entries : List PatchEntry) (t : Tree) :
    (P.Restorable entries t → P.build entries t = t) ∧
      (P.Marked entries → P.build entries t = t → P.Restorable entries t) :=
  ⟨fun h => h.build, fun hm h => hm.restorable h⟩

/-- A file with a number in it, and diffs that change the number to the next one. -/
def counter : PatchTool Nat where
  diff _ contents := PEquiv.single contents.length (contents.length + 1)
  isDir _ _ := true
  modified _ _ := false

/-- Two patches of the file, the second on top of the first. -/
def chain : List PatchEntry :=
  [⟨"first.patch", "components", []⟩, ⟨"second.patch", "components", [0]⟩]

theorem clean_chain : counter.Clean false chain 0 :=
  .applied rfl rfl rfl (.applied rfl rfl rfl .done)

theorem marked_chain : counter.Marked chain := by
  have hdiff : ∀ e t t', counter.diffOf e t = some t' →
      t = e.contents.length ∧ t' = e.contents.length + 1 := fun e t t' h =>
    (PEquiv.mem_single_iff t e.contents.length t' (e.contents.length + 1)).mp h
  refine ⟨⟨fun n => 0 < n, fun t t' h => ?_, fun e' he' t t' h => ?_⟩,
    ⟨fun n => 1 < n, fun t t' h => ?_, fun e' he' => absurd he' List.not_mem_nil⟩, trivial⟩
  · obtain ⟨rfl, rfl⟩ := hdiff _ _ _ h
    exact ⟨Nat.lt_irrefl 0, Nat.one_pos⟩
  · obtain ⟨rfl, rfl⟩ := hdiff _ _ _ h
    obtain rfl := List.mem_singleton.mp he'
    decide
  · obtain ⟨rfl, rfl⟩ := hdiff _ _ _ h
    decide

/-- Both go on and come off again. -/
theorem restored_chain : (counter.apply chain 0).1 = 2 ∧ counter.build chain 0 = 0 ∧
    counter.Marked chain ∧ counter.Restorable chain 0 :=
  have hclean : counter.Restorable chain 0 := .tried (by decide) clean_chain
  have hbuild := (restored_of_restorable counter chain 0).1 hclean
  ⟨by decide, hbuild, marked_chain,
    (restored_of_restorable counter chain 0).2 marked_chain hbuild⟩

/-- A patch that is in the tree already, and in no later one, is taken out of it. -/
theorem build_of_contained (hverify : P.verifyClean [e] t = none)
    (hdir : P.isDir t e.root = true) (hfwd : P.diffOf e t = none)
    (hrev : (P.diffOf e).symm t = some u) : P.build [e] t = u := by
  simp [build, apply, hverify, applyFrom, hdir, hfwd, hrev, restore, restoreOne]

/-- A tree of one file, and the diff that changes its contents from 0 to 1. -/
def oneFile : PatchTool Nat := ⟨fun _ _ => PEquiv.single 0 1, fun _ _ => true, fun _ _ => false⟩

/-- The SDK contains the patch already; the build reverts it. -/
theorem contained_reverted : ¬ ∀ (P : PatchTool Nat) (entries : List PatchEntry) (t : Nat),
    P.build entries t = t := by
  intro h
  exact absurd (h oneFile [⟨"fix.patch", "components", []⟩] 1) (by decide)

/-- A patch that the manifest lists twice comes off although the second time it is found to be
there already: `restore` takes the first for the second. -/
theorem twice_restored (e : PatchEntry) :
    oneFile.build [e, e] 0 = 0 ∧ ¬oneFile.Restorable [e, e] 0 := by
  refine ⟨rfl, fun h => ?_⟩
  have hone : ¬oneFile.Clean false [e] 1 := by
    intro h
    cases h with
    | applied _ hfwd => cases hfwd
    | raised hraise _ => cases (hraise rfl).2
  cases h with
  | tried _ h =>
    cases h with
    | applied _ hfwd _ h =>
      cases hfwd
      exact hone h
    | contained _ hfwd => cases hfwd
    | raised hraise _ => cases (hraise rfl).1
  | refused _ hmod => cases hmod

end PatchTool

end Bl616cl.Runtime
