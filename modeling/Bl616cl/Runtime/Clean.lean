import Mathlib.Data.List.TakeWhile
import Bl616cl.Lib.Text
import Bl616cl.Runtime.CacheKey

/-!
# The check for local modifications

`verify_clean` asks `git status` for the files that the headers of a patch name. The headers name
them from the root of the patch, and the question is put at the top of the SDK, so that a patch
with a root is answered about other files. `guarded_iff` says for which manifests and trees
developers' changes are safe all the same; they are for patches that have no root of their own.
-/

namespace Bl616cl.Runtime

open Bl616cl.Lib

/-- The parts of a path, from the top of the worktree. -/
abbrev Path := List (List Char)

/-- The programs `git` and `patch` in the SDK directory. -/
structure PatchSite (Tree : Type*) where
  /-- What a diff does in a root directory. -/
  diff : String → List UInt8 → Tree ≃. Tree
  isDir : Tree → String → Bool
  /-- `git rev-parse --show-toplevel` is the SDK directory. -/
  isTop : Tree → Bool
  /-- The files with uncommitted changes. -/
  changed : Tree → List Path
  /-- A pathspec that is no plain path, at which `git status` fails. -/
  rejects : List Char → Bool
  /-- Such a pathspec stands for the file. -/
  glob : List Char → Path → Bool

/-! ## The patch files -/

def PatchEntry.lines (e : PatchEntry) : List (List Char) := splitlines (decodeUtf8 e.contents)

/-- The name that `touched_files` takes from a line. -/
def touchedName (line : List Char) : Option (List Char) :=
  if startsWith line "+++ " || startsWith line "--- " then
    let name := (line.drop 4).takeWhile (· ≠ '\t')
    if name = "/dev/null".toList then none
    else if startsWith name "a/" || startsWith name "b/" then some (name.drop 2)
    else some name
  else none

def PatchEntry.touchedFiles (e : PatchEntry) : List (List Char) := e.lines.filterMap touchedName

/-- The text of a line behind `--- ` or `+++ `, up to a tab. -/
def HeaderText (line text : List Char) : Prop :=
  ∃ mark ∈ ["--- ".toList, "+++ ".toList], ∃ date, line = mark ++ text ++ date ∧ '\t' ∉ text ∧
    ∀ c ∈ date.head?, c = '\t'

/-- The line has the name of a file, with an `a/` or `b/` in front of it or without. -/
inductive LineMentions : List Char → List Char → Prop
  | stripped {line name side} : side ∈ ['a', 'b'] → HeaderText line (side :: '/' :: name) →
      LineMentions line name
  | whole {line name} : HeaderText line name → name ≠ "/dev/null".toList →
      ¬"a/".toList <+: name → ¬"b/".toList <+: name → LineMentions line name

def PatchEntry.Mentions (e : PatchEntry) (name : List Char) : Prop :=
  ∃ line ∈ e.lines, LineMentions line name

/-- The name in a header line, its first part stripped as by `patch -p1`. -/
def headerName (line : List Char) : Option (List Char) :=
  let name := (line.drop 4).takeWhile (· ≠ '\t')
  if name = "/dev/null".toList then none
  else match name.dropWhile (· ≠ '/') with
    | [] => none
    | rest => some (rest.dropWhile (· = '/'))

/-- The names in the headers of a unified diff: two lines with a hunk behind them. -/
def headerNames : List (List Char) → List (List Char)
  | [] => []
  | old :: lines =>
    (match lines with
      | new :: hunk :: _ =>
        if startsWith old "--- " && startsWith new "+++ " && startsWith hunk "@@ -" then
          [old, new].filterMap headerName
        else []
      | _ => []) ++ headerNames lines

def parts (path : List Char) : Path :=
  (path.splitOn '/').filter fun part => part ≠ [] ∧ part ≠ ['.']

/-- The place of a relative path; `none` is outside of the worktree. -/
def resolve (path : Path) : Option Path :=
  path.foldlM (fun place part =>
    if part = ['.', '.'] then if place = [] then none else some place.dropLast
    else some (place ++ [part])) []

/-- The files that the headers of a patch name, under its root. -/
def PatchEntry.namedFiles (e : PatchEntry) : List Path :=
  (headerNames e.lines).filterMap fun name => resolve (parts e.root.toList ++ parts name)

/-- A pathspec without the characters that are special to `git`. -/
def plain (name : List Char) : Bool :=
  name ≠ [] && !startsWith name ":" && !startsWith name "/" && name.getLast? != some '/' &&
    name.all fun c => !(['*', '?', '[', '\\'].contains c)

/-! ### What `touched_files` finds -/

section

variable {line text name : List Char} {e : PatchEntry}

theorem startsWith_iff {start : String} : startsWith line start = true ↔ start.toList <+: line :=
  List.isPrefixOf_iff_prefix

theorem takeWhile_tab {date : List Char} (htext : '\t' ∉ text)
    (hdate : ∀ c ∈ date.head?, c = '\t') : (text ++ date).takeWhile (· ≠ '\t') = text := by
  have hpos : ∀ c ∈ text, decide (c ≠ '\t') = true :=
    fun c hc => decide_eq_true fun htab => htext (htab ▸ hc)
  rw [List.takeWhile_append_of_pos hpos]
  cases date with
  | nil => exact List.append_nil text
  | cons c date =>
    obtain rfl := hdate c rfl
    exact List.append_nil text

theorem headerText_iff : HeaderText line text ↔
    (startsWith line "+++ " || startsWith line "--- ") = true ∧
      (line.drop 4).takeWhile (· ≠ '\t') = text := by
  constructor
  · rintro ⟨mark, hmark, date, rfl, htext, hdate⟩
    obtain rfl | rfl := List.mem_pair.mp hmark
    · exact ⟨rfl, takeWhile_tab htext hdate⟩
    · exact ⟨rfl, takeWhile_tab htext hdate⟩
  · rintro ⟨hstart, rfl⟩
    obtain ⟨mark, hmark, hfour, rest, rfl⟩ : ∃ mark ∈ ["--- ".toList, "+++ ".toList],
        mark.length = 4 ∧ ∃ rest, mark ++ rest = line := by
      rcases Bool.or_eq_true_iff.mp hstart with h | h
      · exact ⟨"+++ ".toList, by decide, rfl, startsWith_iff.mp h⟩
      · exact ⟨"--- ".toList, by decide, rfl, startsWith_iff.mp h⟩
    rw [← hfour, List.drop_left]
    refine ⟨mark, hmark, rest.dropWhile (· ≠ '\t'), ?_, fun htab => ?_, fun c hc => ?_⟩
    · rw [List.append_assoc, List.takeWhile_append_dropWhile]
    · simpa using List.mem_takeWhile_imp htab
    · by_contra hne
      have := List.head?_dropWhile_not (· ≠ '\t') rest
      rw [Option.mem_def.mp hc] at this
      simp [hne] at this

theorem touchedName_iff : touchedName line = some name ↔ LineMentions line name := by
  constructor
  · intro h
    unfold touchedName at h
    split at h
    · next hstart =>
      have htext := headerText_iff.mpr ⟨hstart, rfl⟩
      generalize (line.drop 4).takeWhile (· ≠ '\t') = text at h htext
      dsimp only at h
      split at h
      · cases h
      · next hnull =>
        split at h
        · next hside =>
          obtain ⟨side, hmem, name', rfl⟩ :
              ∃ side ∈ ['a', 'b'], ∃ name', side :: '/' :: name' = text := by
            rcases Bool.or_eq_true_iff.mp hside with hside | hside
            · exact ⟨'a', by decide, startsWith_iff.mp hside⟩
            · exact ⟨'b', by decide, startsWith_iff.mp hside⟩
          cases h
          exact .stripped hmem htext
        · next hside =>
          rw [Bool.or_eq_true_iff, startsWith_iff, startsWith_iff, not_or] at hside
          cases h
          exact .whole htext hnull hside.1 hside.2
    · cases h
  · intro h
    unfold touchedName
    cases h with
    | stripped hside htext =>
      obtain ⟨hstart, htext⟩ := headerText_iff.mp htext
      rw [if_pos hstart, htext]
      obtain rfl | rfl := List.mem_pair.mp hside <;> rfl
    | whole htext hnull ha hb =>
      obtain ⟨hstart, htext⟩ := headerText_iff.mp htext
      rw [if_pos hstart, htext]
      have hside : ¬(startsWith name "a/" || startsWith name "b/") = true := by
        rw [Bool.or_eq_true_iff, startsWith_iff, startsWith_iff]
        exact not_or.mpr ⟨ha, hb⟩
      rw [if_neg hnull, if_neg hside]

theorem mem_touchedFiles_iff : name ∈ e.touchedFiles ↔ e.Mentions name := by
  rw [PatchEntry.touchedFiles, List.mem_filterMap]
  exact exists_congr fun line => and_congr_right fun _ => touchedName_iff

end

namespace PatchSite

variable {Tree : Type*} (S : PatchSite Tree)

/-! ## `verify_clean` -/

/-- The pathspec leads out of the worktree, or is none; `git status` fails. -/
def outside (name : List Char) : Bool :=
  if plain name then (resolve (parts name)).isNone else S.rejects name

/-- The pathspec stands for the file: it is its path, or that of a directory above it. -/
def covers (name : List Char) (path : Path) : Bool :=
  if plain name then (resolve (parts name)).any fun place => place.isPrefixOf path
  else S.glob name path

/-- The files that `git status --porcelain -- *files` lists; `none` is a failure. -/
def status (t : Tree) (files : List (List Char)) : Option (List Path) :=
  if files.any S.outside then none
  else some ((S.changed t).filter fun path => files.any fun file => S.covers file path)

def modified (t : Tree) (e : PatchEntry) : Bool :=
  S.isTop t && !e.touchedFiles.isEmpty && !((S.status t e.touchedFiles).getD []).isEmpty

def tool : PatchTool Tree := ⟨S.diff, S.isDir, S.modified⟩

variable (es : List PatchEntry) (t : Tree)

/-! ## The property and its condition -/

/-- A file that a patch names has uncommitted changes. -/
def Dirty : Prop := ∃ e ∈ es, ∃ path ∈ e.namedFiles, path ∈ S.changed t

/-- `apply` raises and has patched nothing. -/
structure Refuses : Prop where
  raises : (S.tool.apply es t).2 ≠ none
  applied : S.tool.applied es t = []
  same : (S.tool.apply es t).1 = t

/-- Developers' changes are safe, and do not stop a build in which no patch meets them. -/
def Guarded : Prop :=
  (S.Dirty es t → S.Refuses es t) ∧ (¬S.Dirty es t → S.tool.verifyClean es t = none)

/-- Taken from the top of the worktree, a name in a patch is that of a file with uncommitted
changes, and none leads out of it. -/
def Seen : Prop :=
  ∃ e ∈ es, (∀ name, e.Mentions name → S.outside name = false) ∧
    ∃ name, e.Mentions name ∧ ∃ path ∈ S.changed t, S.covers name path = true

/-- The patch is in the tree. -/
def Contained (e : PatchEntry) : Prop :=
  S.isDir t e.root = true ∧ S.diff e.root e.contents t = none ∧
    (S.diff e.root e.contents).symm t ≠ none

/-- The patch can neither be applied nor taken out. -/
def Stuck (e : PatchEntry) : Prop :=
  S.isDir t e.root = false ∨
    (S.diff e.root e.contents t = none ∧ (S.diff e.root e.contents).symm t = none)

/-- The first patch that is not in the tree already cannot be applied. -/
def Blocked : Prop :=
  ∃ before e after, es = before ++ e :: after ∧ (∀ c ∈ before, S.Contained t c) ∧ S.Stuck t e

/-- Where a file under its root is changed, the names from the top tell of a change, or nothing can
be patched; and where none is, they tell of none. -/
def Aligned : Prop :=
  (S.Dirty es t ∧ (S.Seen es t ∨ S.Blocked es t)) ∨ (¬S.Dirty es t ∧ ¬S.Seen es t)

/-- The names in the patch are those of its files also from the top. -/
structure AtTop (e : PatchEntry) : Prop where
  plain : ∀ name, e.Mentions name → plain name = true ∧ resolve (parts name) ≠ none
  same : ∀ path, path ∈ e.namedFiles ↔ ∃ name, e.Mentions name ∧ resolve (parts name) = some path

variable {S es t} {e : PatchEntry}

theorem status_ne_nil_iff {files : List (List Char)} :
    (S.status t files).getD [] ≠ [] ↔ (∀ name ∈ files, S.outside name = false) ∧
      ∃ name ∈ files, ∃ path ∈ S.changed t, S.covers name path = true := by
  unfold status
  split
  · next hout =>
    obtain ⟨name, hname, hout⟩ := List.any_eq_true.1 hout
    simp only [Option.getD_none, ne_eq, not_true, false_iff, not_and]
    intro hin
    rw [hin name hname] at hout
    cases hout
  · next hin =>
    have hin : ∀ name ∈ files, S.outside name = false := by simpa using hin
    rw [Option.getD_some, ne_eq, List.filter_eq_nil_iff]
    push Not
    constructor
    · rintro ⟨path, hpath, hcov⟩
      obtain ⟨name, hname, hcov⟩ := List.any_eq_true.1 hcov
      exact ⟨hin, name, hname, path, hpath, hcov⟩
    · rintro ⟨-, name, hname, path, hpath, hcov⟩
      exact ⟨path, hpath, List.any_eq_true.2 ⟨name, hname, hcov⟩⟩

theorem atTop_of_eq
    (hplain : ∀ name ∈ e.touchedFiles, plain name = true ∧ resolve (parts name) ≠ none)
    (hsame : e.namedFiles = e.touchedFiles.filterMap fun name => resolve (parts name)) :
    AtTop e where
  plain name hname := hplain name (mem_touchedFiles_iff.2 hname)
  same path := by
    simp only [hsame, List.mem_filterMap, mem_touchedFiles_iff]

theorem modified_iff (htop : S.isTop t = true) :
    S.modified t e = true ↔ (∀ name, e.Mentions name → S.outside name = false) ∧
      ∃ name, e.Mentions name ∧ ∃ path ∈ S.changed t, S.covers name path = true := by
  have hstatus : (S.status t e.touchedFiles).getD [] ≠ [] ↔ _ := status_ne_nil_iff
  simp only [mem_touchedFiles_iff] at hstatus
  rw [← hstatus]
  simp only [modified, htop, Bool.true_and, Bool.and_eq_true, Bool.not_eq_true',
    List.isEmpty_eq_false_iff]
  refine ⟨fun h => h.2, fun h => ⟨fun hnil => ?_, h⟩⟩
  obtain ⟨-, name, hname, -⟩ := hstatus.1 h
  rw [← mem_touchedFiles_iff, hnil] at hname
  cases hname

theorem verifyClean_eq_none_iff (htop : S.isTop t = true) :
    S.tool.verifyClean es t = none ↔ ¬S.Seen es t := by
  rw [PatchTool.verifyClean, Option.map_eq_none_iff, List.find?_eq_none, Seen, not_exists]
  refine forall_congr' fun e => ?_
  rw [not_and]
  refine imp_congr_right fun _ => ?_
  show ¬S.modified t e = true ↔ _
  rw [modified_iff htop]

/-! ## The loop of `apply` -/

theorem blocked_cons :
    S.Blocked (e :: es) t ↔ S.Stuck t e ∨ (S.Contained t e ∧ S.Blocked es t) := by
  constructor
  · rintro ⟨before, e', after, heq, hbefore, hstuck⟩
    cases before with
    | nil =>
      cases heq
      exact .inl hstuck
    | cons c before =>
      cases heq
      obtain ⟨hc, hbefore⟩ := List.forall_mem_cons.1 hbefore
      exact .inr ⟨hc, before, e', after, rfl, hbefore, hstuck⟩
  · rintro (hstuck | ⟨hc, before, e', after, rfl, hbefore, hstuck⟩)
    · exact ⟨[], e, es, rfl, fun c hc => absurd hc List.not_mem_nil, hstuck⟩
    · exact ⟨e :: before, e', after, rfl, List.forall_mem_cons.2 ⟨hc, hbefore⟩, hstuck⟩

/-- The loop raises with nothing patched exactly when it is blocked so on the tree as it is. -/
theorem blocked_iff : S.Blocked es t ↔ (S.tool.applyFrom es t).2 ≠ none ∧
    S.tool.appliedFrom es t = [] ∧ (S.tool.applyFrom es t).1 = t := by
  induction es with
  | nil =>
    refine ⟨?_, fun h => absurd rfl h.1⟩
    rintro ⟨before, e, after, heq, -⟩
    cases before <;> cases heq
  | cons e es ih =>
    rw [blocked_cons]
    cases hdir : S.isDir t e.root with
    | false => simp [Stuck, PatchTool.applyFrom, PatchTool.appliedFrom, tool, hdir]
    | true =>
      cases hfwd : S.diff e.root e.contents t with
      | some u =>
        -- the patch is applied
        simp [Stuck, Contained, PatchTool.appliedFrom, tool, hdir, PatchTool.diffOf, hfwd]
      | none =>
        cases hrev : (S.diff e.root e.contents).symm t with
        | none =>
          simp [Stuck, PatchTool.applyFrom, PatchTool.appliedFrom, tool, hdir, PatchTool.diffOf,
            hfwd, hrev]
        | some u =>
          simpa [Stuck, Contained, PatchTool.applyFrom, PatchTool.appliedFrom, tool, hdir,
            PatchTool.diffOf, hfwd, hrev] using ih

theorem refuses_iff (htop : S.isTop t = true) :
    S.Refuses es t ↔ S.Seen es t ∨ S.Blocked es t := by
  by_cases hseen : S.Seen es t
  · obtain ⟨error, herror⟩ := Option.ne_none_iff_exists'.1
      fun hnone => (verifyClean_eq_none_iff htop).1 hnone hseen
    refine ⟨fun _ => .inl hseen, fun _ => ⟨?_, ?_, ?_⟩⟩ <;>
      simp [PatchTool.apply, PatchTool.applied, herror]
  · have hnone := (verifyClean_eq_none_iff htop).2 hseen
    rw [blocked_iff, or_iff_right hseen]
    constructor
    · rintro ⟨hraises, happlied, hsame⟩
      simp only [PatchTool.apply, PatchTool.applied, hnone] at hraises happlied hsame
      exact ⟨hraises, happlied, hsame⟩
    · rintro ⟨hraises, happlied, hsame⟩
      refine ⟨?_, ?_, ?_⟩ <;> simpa [PatchTool.apply, PatchTool.applied, hnone]

/-- **Guarding**: local modifications are safe from a patch set exactly when the names from the top
of the SDK tell of them. -/
theorem guarded_iff (S : PatchSite Tree) (p : Platform) (t : Tree) (htop : S.isTop t = true) :
    S.Guarded p.entries t ↔ S.Aligned p.entries t := by
  rw [Guarded, Aligned, refuses_iff htop, verifyClean_eq_none_iff htop]
  by_cases hdirty : S.Dirty p.entries t
  · simp [hdirty]
  · simp [hdirty]

theorem aligned_of_atTop (htop : ∀ e ∈ es, AtTop e)
    (hfiles : ∀ e ∈ es, ∀ file ∈ e.namedFiles, ∀ path ∈ S.changed t, file <+: path → path = file) :
    S.Aligned es t := by
  have hseen : S.Seen es t ↔ S.Dirty es t := by
    constructor
    · rintro ⟨e, he, -, name, hname, path, hpath, hcov⟩
      obtain ⟨hplain, hin⟩ := (htop e he).plain name hname
      obtain ⟨place, hplace⟩ := Option.ne_none_iff_exists'.1 hin
      rw [covers, if_pos hplain, hplace, Option.any_some, List.isPrefixOf_iff_prefix] at hcov
      have hnamed := ((htop e he).same place).2 ⟨name, hname, hplace⟩
      obtain rfl := hfiles e he place hnamed path hpath hcov
      exact ⟨e, he, path, hnamed, hpath⟩
    · rintro ⟨e, he, path, hnamed, hpath⟩
      obtain ⟨name, hname, hplace⟩ := ((htop e he).same path).1 hnamed
      refine ⟨e, he, fun name' hname' => ?_, name, hname, path, hpath, ?_⟩
      · obtain ⟨hplain, hin⟩ := (htop e he).plain name' hname'
        rw [outside, if_pos hplain, Option.isNone_eq_false_iff, Option.isSome_iff_ne_none]
        exact hin
      · rw [covers, if_pos ((htop e he).plain name hname).1, hplace, Option.any_some]
        exact List.isPrefixOf_iff_prefix.2 (List.prefix_refl path)
  by_cases hdirty : S.Dirty es t
  · exact .inl ⟨hdirty, .inl (hseen.2 hdirty)⟩
  · exact .inr ⟨hdirty, fun h => hdirty (hseen.1 h)⟩

/-- A worktree with one patched file; the tree tells whether a developer has changed it in another
place, and whether the patch is in it. -/
def lhal : PatchSite (Bool × Bool) where
  diff _ _ := {
    toFun t := if t.2 then none else some (t.1, true)
    invFun t := if t.2 then some (t.1, false) else none
    inv := by
      rintro ⟨d, p⟩ ⟨d', p'⟩
      cases p <;> cases p' <;> simp [eq_comm] }
  isDir _ _ := true
  isTop _ := true
  changed t := if t.1 || t.2 then [parts "drivers/lhal/src/bflb_usb_v2.c".toList] else []
  rejects _ := false
  glob _ _ := false

/-- A manifest with a patch for it, under a root; `driverFix` has that of the driver and `topFix`
the top of the SDK. -/
def usbFix (root header : String) : Platform where
  probeFile _ := []
  builder := []
  generator := []
  patchesJson := [⟨"usb.patch", root, false⟩]
  patchFile _ :=
    let text := "--- a/" ++ header ++ "\n+++ b/" ++ header ++ "\n@@ -1 +1 @@\n-0\n+1\n"
    text.toList.map fun c => c.toNat.toUInt8
  toolchainVersion _ := ""

def driverFix : Platform := usbFix "drivers/lhal" "src/bflb_usb_v2.c"

def topFix : Platform := usbFix "." "drivers/lhal/src/bflb_usb_v2.c"

/-- There a developer's change stops the build. -/
theorem guarded_topFix : lhal.Dirty topFix.entries (true, false) ∧
    lhal.Guarded topFix.entries (true, false) := by
  have htop : ∀ e ∈ topFix.entries, AtTop e := by
    intro e he
    obtain rfl := List.mem_singleton.1 he
    exact atTop_of_eq (by decide) (by decide)
  refine ⟨by unfold Dirty; decide, (guarded_iff lhal topFix (true, false) rfl).2 ?_⟩
  exact aligned_of_atTop htop (by decide)

/-- Under the root of the driver the file is patched, change and all. -/
theorem not_guarded_driverFix : ¬lhal.Guarded driverFix.entries (true, false) := by
  intro h
  have hdirty : lhal.Dirty driverFix.entries (true, false) := by
    unfold Dirty
    decide
  exact (h.1 hdirty).raises (by decide)

end PatchSite

end Bl616cl.Runtime
