import Mathlib.Data.List.AList
import Mathlib.Data.List.Dedup
import Mathlib.Data.List.Sort
import Mathlib.Data.String.Basic
import Bl616cl.Runtime.Digest

/-!
# The fingerprint of the SDK

`sdk_fingerprint` of a git worktree: HEAD, and hashes of what `git status` and `git diff` print.
Files that are not tracked it finds by the names that `git status` prints, and so it does not find
those of a directory printed as one, or those with a name printed in quotes. `sees_iff` says which
changes show.
-/

namespace Bl616cl.Runtime

open Bl616cl.Lib

/-- A path as git has it, from the top of the worktree. -/
abbrev GitPath := List UInt8

structure SdkFile where
  content : List UInt8
  mtimeNs : Nat
  size_lt : content.length < 2 ^ 63

structure Worktree where
  /-- What `sdk_version` returns. -/
  version : String
  /-- `git rev-parse HEAD`. -/
  head : String
  /-- The tracked paths. -/
  index : List GitPath
  ignored : GitPath → Bool
  files : AList fun _ : GitPath => SdkFile
  /-- The lines of `git status` about tracked files. -/
  changes : List (List Char)
  /-- The text of `git diff HEAD --binary`; `none` is one that cannot be decoded, at which
  `subprocess.run` raises. -/
  diff : Option (List Char)
  files_path : ∀ path ∈ files.keys, path ≠ [] ∧ path.getLast? ≠ some 0x2f
  changes_line : ∀ line ∈ changes,
    (∀ c ∈ line, isBreak c = false) ∧ startsWith line "?? " = false

/-- `sha256_text` and `sha256_file`. -/
structure Sha256 where
  text : List Char → List Char
  file : List UInt8 → List Char
  length_file : ∀ bytes, (file bytes).length = 64
  colon_file : ∀ bytes, ':' ∉ file bytes

/-- The dictionary that `sdk_fingerprint` returns. -/
structure Fingerprint where
  version : String
  commit : String
  status : List Char
  diff : List Char
  untracked : Option (List Char)

namespace Worktree

variable (w v : Worktree)

/-! ## `git status` -/

def isUntracked (path : GitPath) : Bool :=
  (w.files.lookup path).isSome && !w.index.contains path && !w.ignored path

/-- The directories over a path, from the top. -/
def dirs (path : GitPath) : List GitPath := path.inits.filter fun dir => dir.getLast? = some 0x2f

/-- An untracked file is shown by the first directory over it that has no tracked file. -/
def shown (path : GitPath) : GitPath :=
  ((dirs path).find? fun dir => !w.index.any fun tracked => dir.isPrefixOf tracked).getD path

def listed : List GitPath :=
  ((w.files.keys.filter w.isUntracked).map w.shown).dedup.insertionSort (· ≤ ·)

/-- `git status --porcelain=v1 --untracked-files=normal`. -/
def status : List Char :=
  (w.changes ++ w.listed.map fun path => "?? ".toList ++ printName path).flatMap fun line =>
    line ++ ['\n']

/-! ## `sdk_fingerprint` -/

/-- `untracked`. -/
def names : List (List Char) :=
  ((splitlines w.status).filter fun line => startsWith line "?? ").map fun line => line.drop 3

/-- `sdk / name`, where it is a file. -/
def find (name : List Char) : Option SdkFile :=
  w.files.lookup (name.map fun c => UInt8.ofNat c.toNat)

def hashLimit : Nat := 4 * 1024 * 1024

def told (H : Sha256) (name : List Char) : Option Told :=
  (w.find name).map fun file =>
    if file.content.length ≤ hashLimit then .hash (H.file file.content)
    else .stat file.content.length file.mtimeNs

/-- What the third hash is of. -/
def untrackedText (H : Sha256) : List Char := records (w.told H) (w.names.insertionSort (· ≤ ·))

def fingerprint (H : Sha256) : Option Fingerprint :=
  w.diff.map fun diff => {
    version := w.version
    commit := w.head
    status := (H.text w.status).take 16
    diff := (H.text diff).take 16
    untracked := if w.names = [] then none else some ((H.text (w.untrackedText H)).take 16) }

/-! ## Changes -/

def trackedContent (path : GitPath) : Option (List UInt8) :=
  if w.index.contains path then (w.files.lookup path).map SdkFile.content else none

def untrackedContent (path : GitPath) : Option (List UInt8) :=
  if w.isUntracked path then (w.files.lookup path).map SdkFile.content else none

/-- A tracked file differs. -/
def TrackedDiffer : Prop := ∃ path, w.trackedContent path ≠ v.trackedContent path

/-- Or an untracked one that is not large. -/
def Differ : Prop :=
  w.TrackedDiffer v ∨ ∃ path, w.untrackedContent path ≠ v.untrackedContent path ∧
    (∀ c ∈ w.untrackedContent path, c.length ≤ hashLimit) ∧
      ∀ c ∈ v.untrackedContent path, c.length ≤ hashLimit

/-- A change has two fingerprints. -/
def Sees (H : Sha256) : Prop :=
  w.Differ v → ∃ f g, w.fingerprint H = some f ∧ v.fingerprint H = some g ∧ f ≠ g

/-- `git diff HEAD --binary` shows all changes of tracked files. -/
def DiffShows : Prop :=
  w.head = v.head → w.diff.isSome = true → w.diff = v.diff → ¬w.TrackedDiffer v

/-- What is hashed has the same hash only where it is the same. -/
structure CollisionFree (H : Sha256) : Prop where
  text : ∀ x ∈ w.status :: w.untrackedText H :: w.diff.toList,
    ∀ y ∈ v.status :: v.untrackedText H :: v.diff.toList,
      (H.text x).take 16 = (H.text y).take 16 → x = y
  file : ∀ x ∈ w.files.entries, ∀ y ∈ v.files.entries,
    H.file x.2.content = H.file y.2.content → x.2.content = y.2.content

/-- What the fingerprint could tell of a name: the content, or size and time of a large file. -/
def seen (name : List Char) : Option (List UInt8 ⊕ Nat × Nat) :=
  (w.find name).map fun file =>
    if file.content.length ≤ hashLimit then .inl file.content
    else .inr (file.content.length, file.mtimeNs)

/-- Something differs that git prints, or the file that has a printed path for its name. -/
def Shows : Prop :=
  w.version ≠ v.version ∨ w.head ≠ v.head ∨ w.diff ≠ v.diff ∨ w.status ≠ v.status ∨
    ∃ path ∈ w.listed, w.seen (printName path) ≠ v.seen (printName path)

/-- The differences of the untracked files show, and all the diffs can be read. -/
def Sensitive : Prop :=
  w.Differ v → w.diff.isSome = true ∧ v.diff.isSome = true ∧ (w.TrackedDiffer v ∨ w.Shows v)

variable {w v} {H : Sha256} {name : List Char} {path : GitPath}

/-! ## The names -/

theorem mem_listed : path ∈ w.listed ↔
    ∃ file, w.isUntracked file = true ∧ w.shown file = path := by
  rw [listed, List.mem_insertionSort, List.mem_dedup, List.mem_map]
  refine exists_congr fun file => and_congr_left fun _ => ?_
  rw [List.mem_filter, and_iff_right_iff_imp]
  intro h
  have hfound : (w.files.lookup file).isSome = true := by
    simp only [isUntracked, Bool.and_eq_true] at h
    exact h.1.1
  exact AList.mem_keys.1 (AList.lookup_isSome.1 hfound)

theorem nodup_listed : w.listed.Nodup :=
  (List.perm_insertionSort _ _).nodup_iff.2 (List.nodup_dedup _)

theorem shown_cases (file : GitPath) :
    w.shown file = file ∨ (w.shown file).getLast? = some 0x2f := by
  unfold shown
  cases hfind : (dirs file).find? fun dir => !w.index.any fun tracked => dir.isPrefixOf tracked with
  | none => exact .inl rfl
  | some dir =>
    have hmem := List.mem_of_find?_eq_some hfind
    exact .inr (by simpa [dirs] using (List.mem_filter.1 hmem).2)

theorem mem_keys_of_isUntracked (h : w.isUntracked path = true) : path ∈ w.files.keys := by
  simp only [isUntracked, Bool.and_eq_true] at h
  exact AList.mem_keys.1 (AList.lookup_isSome.1 h.1.1)

theorem isSome_lookup_listed (h : path ∈ w.listed) :
    (w.files.lookup path).isSome = true ↔ path.getLast? ≠ some 0x2f := by
  obtain ⟨file, hfile, hshown⟩ := mem_listed.1 h
  constructor
  · intro hfound
    exact (w.files_path path (AList.mem_keys.1 (AList.lookup_isSome.1 hfound))).2
  · intro hlast
    rcases shown_cases (w := w) file with heq | hdir
    · rw [← hshown, heq]
      exact AList.lookup_isSome.2 (AList.mem_keys.2 (mem_keys_of_isUntracked hfile))
    · exact absurd (hshown ▸ hdir) hlast

theorem ne_nil_of_mem_listed (h : path ∈ w.listed) : path ≠ [] := by
  obtain ⟨file, hfile, hshown⟩ := mem_listed.1 h
  rcases shown_cases (w := w) file with heq | hdir
  · rw [← hshown, heq]
    exact (w.files_path file (mem_keys_of_isUntracked hfile)).1
  · rintro rfl
    rw [hshown] at hdir
    cases hdir

theorem names_eq (w : Worktree) : w.names = w.listed.map printName := by
  have hmark : ∀ c ∈ "?? ".toList, isBreak c = false := by
    have hall : ("?? ".toList).all (fun c => !isBreak c) = true := by decide
    intro c hc
    simpa using List.all_eq_true.1 hall c hc
  have hbreaks : ∀ line ∈ w.changes ++ w.listed.map fun path => "?? ".toList ++ printName path,
      ∀ c ∈ line, isBreak c = false := by
    intro line hline c hc
    rcases List.mem_append.1 hline with hline | hline
    · exact (w.changes_line line hline).1 c hc
    · obtain ⟨path, -, rfl⟩ := List.mem_map.1 hline
      rcases List.mem_append.1 hc with hc | hc
      · exact hmark c hc
      · exact isBreak_printName path c hc
  have hchanges : (w.changes.filter fun line => startsWith line "?? ") = [] := by
    refine List.filter_eq_nil_iff.2 fun line hline => ?_
    rw [(w.changes_line line hline).2]
    exact Bool.false_ne_true
  have huntracked : ∀ line ∈ w.listed.map fun path => "?? ".toList ++ printName path,
      startsWith line "?? " = true := by
    intro line hline
    obtain ⟨path, -, rfl⟩ := List.mem_map.1 hline
    rfl
  rw [names, status, splitlines_flatMap hbreaks, List.filter_append, hchanges, List.nil_append,
    List.filter_eq_self.2 huntracked, List.map_map]
  rfl

theorem mem_names : name ∈ w.names ↔ ∃ path ∈ w.listed, printName path = name := by
  rw [names_eq, List.mem_map]

theorem isPrinted_names : ∀ n ∈ w.names, IsPrinted n := by
  intro n hn
  obtain ⟨path, hpath, rfl⟩ := mem_names.1 hn
  exact ⟨path, ne_nil_of_mem_listed hpath, rfl⟩

theorem nodup_names : w.names.Nodup := by
  rw [names_eq]
  exact nodup_listed.map fun _ _ => printName_inj

theorem find_printName (h : '"' ∉ printName path) :
    w.find (printName path) = w.files.lookup path := by
  rcases printName_cases path with ⟨heq, -, -⟩ | heq
  · rw [find, heq, List.map_map]
    congr 1
    conv_rhs => rw [← List.map_id path]
    refine List.map_congr_left fun b _ => ?_
    rw [Function.comp_apply, toNat_byteChar]
    exact UInt8.ofNat_toNat
  · rw [heq] at h
    exact absurd (List.mem_cons_self ..) h

theorem names_congr (hstatus : w.status = v.status) : w.names = v.names := by
  rw [names, names, hstatus]

theorem mem_listed_congr (hstatus : w.status = v.status) (h : path ∈ w.listed) :
    path ∈ v.listed := by
  have hname : printName path ∈ v.names := by
    rw [← names_congr hstatus]
    exact mem_names.2 ⟨path, h, rfl⟩
  obtain ⟨path', hpath', heq⟩ := mem_names.1 hname
  exact printName_inj heq ▸ hpath'

theorem isSome_find_eq (hstatus : w.status = v.status) (h : name ∈ w.names)
    (hquote : '"' ∉ name) : (w.find name).isSome = (v.find name).isSome := by
  obtain ⟨path, hpath, rfl⟩ := mem_names.1 h
  rw [find_printName hquote, find_printName hquote, Bool.eq_iff_iff, isSome_lookup_listed hpath,
    isSome_lookup_listed (mem_listed_congr hstatus hpath)]

/-! ## The hash of the untracked files -/

theorem told_fits : ∀ t ∈ w.told H name, t.Fits := by
  intro t ht
  obtain ⟨file, -, rfl⟩ := Option.map_eq_some_iff.1 ht
  split
  · exact ⟨H.length_file _, H.colon_file _⟩
  · exact file.size_lt

theorem told_eq_map (w : Worktree) (H : Sha256) (name : List Char) :
    w.told H name = (w.seen name).map fun
      | .inl content => .hash (H.file content)
      | .inr (size, mtimeNs) => .stat size mtimeNs := by
  unfold told seen
  cases w.find name with
  | none => rfl
  | some f =>
    simp only [Option.map_some]
    split <;> rfl

/-- The digest tells of a name what can be seen of it. -/
theorem told_eq_iff (hfree : w.CollisionFree v H) :
    w.told H name = v.told H name ↔ w.seen name = v.seen name := by
  unfold told seen
  cases hw : w.find name with
  | none => cases hv : v.find name <;> simp
  | some f =>
    cases hv : v.find name with
    | none => simp
    | some g =>
      have hfile : H.file f.content = H.file g.content ↔ f.content = g.content :=
        ⟨hfree.file ⟨_, f⟩ (AList.mem_lookup_iff.1 hw) ⟨_, g⟩ (AList.mem_lookup_iff.1 hv),
          congrArg H.file⟩
      simp only [Option.map_some, Option.some_inj]
      split <;> split <;> simp [hfile]

theorem untrackedText_eq (hstatus : w.status = v.status)
    (h : ∀ name ∈ w.names, w.seen name = v.seen name) : w.untrackedText H = v.untrackedText H := by
  rw [untrackedText, untrackedText, ← names_congr hstatus]
  unfold records
  refine List.flatMap_congr fun n hn => ?_
  rw [told_eq_map w, told_eq_map v, h n ((List.mem_insertionSort _).1 hn)]

/-- With one status the text that is hashed last tells of all names. -/
theorem seen_eq_of_untrackedText_eq (hfree : w.CollisionFree v H) (hstatus : w.status = v.status)
    (h : w.untrackedText H = v.untrackedText H) : ∀ name ∈ w.names, w.seen name = v.seen name := by
  intro name hname
  have hperm := List.perm_insertionSort (· ≤ ·) w.names
  rw [untrackedText, untrackedText, ← names_congr hstatus] at h
  rw [← told_eq_iff hfree]
  refine told_eq (fun n hn => isPrinted_names n (hperm.mem_iff.1 hn))
    (hperm.nodup_iff.2 nodup_names) (fun n hn hquote => ?_) (fun n => told_fits)
    (fun n => told_fits) h name (hperm.mem_iff.2 hname)
  rw [told, told, Option.isSome_map, Option.isSome_map]
  exact isSome_find_eq hstatus (hperm.mem_iff.1 hn) hquote

/-! ## The fingerprint -/

/-- What does not show changes no hash. -/
theorem fingerprint_eq (h : ¬w.Shows v) : w.fingerprint H = v.fingerprint H := by
  simp only [Shows, not_or, not_not, not_exists, not_and] at h
  obtain ⟨hversion, hhead, hdiff, hstatus, hseen⟩ := h
  have hnames := names_congr hstatus
  have htext : w.untrackedText H = v.untrackedText H := by
    refine untrackedText_eq hstatus fun name hname => ?_
    obtain ⟨path, hpath, rfl⟩ := mem_names.1 hname
    exact hseen path hpath
  simp only [fingerprint, hversion, hhead, hdiff, hstatus, hnames, htext]

/-- Two fingerprints are different when something shows. -/
theorem fingerprint_ne_iff (hfree : w.CollisionFree v H) (hw : w.diff.isSome = true)
    (hv : v.diff.isSome = true) : w.fingerprint H ≠ v.fingerprint H ↔ w.Shows v := by
  obtain ⟨a, ha⟩ := Option.isSome_iff_exists.1 hw
  obtain ⟨b, hb⟩ := Option.isSome_iff_exists.1 hv
  constructor
  · exact fun hne => by_contra fun hno => hne (fingerprint_eq hno)
  · intro hshows heq
    simp only [fingerprint, ha, hb, Option.map_some, Option.some_inj, Fingerprint.mk.injEq] at heq
    obtain ⟨hversion, hhead, hstatusHash, hdiffHash, huntracked⟩ := heq
    have hstatus : w.status = v.status :=
      hfree.text _ (List.mem_cons_self ..) _ (List.mem_cons_self ..) hstatusHash
    have hdiff : a = b := by
      refine hfree.text a ?_ b ?_ hdiffHash
      · simp [ha]
      · simp [hb]
    have hnames : v.names = w.names := (names_congr hstatus).symm
    rcases hshows with hne | hne | hne | hne | ⟨path, hpath, hne⟩
    · exact hne hversion
    · exact hne hhead
    · exact hne (by rw [ha, hb, hdiff])
    · exact hne hstatus
    · have hname : printName path ∈ w.names := mem_names.2 ⟨path, hpath, rfl⟩
      have hnil : w.names ≠ [] := List.ne_nil_of_mem hname
      rw [hnames, if_neg hnil, if_neg hnil] at huntracked
      have htext : w.untrackedText H = v.untrackedText H :=
        hfree.text _ (by simp) _ (by simp) (Option.some.inj huntracked)
      exact hne (seen_eq_of_untrackedText_eq hfree hstatus htext _ hname)

/-- An untracked file shows that is printed by its own path and without quotes. -/
theorem shows_of_plain (hfile : w.isUntracked path = true) (hshown : w.shown path = path)
    (hquote : '"' ∉ printName path) (hsize : ∀ c ∈ w.untrackedContent path, c.length ≤ hashLimit)
    (hne : w.untrackedContent path ≠ v.untrackedContent path) : w.Shows v := by
  by_contra hno
  simp only [Shows, not_or, not_not, not_exists, not_and] at hno
  obtain ⟨-, -, -, hstatus, hseen⟩ := hno
  have hpath : path ∈ w.listed := mem_listed.2 ⟨path, hfile, hshown⟩
  have hlast := (w.files_path path (mem_keys_of_isUntracked hfile)).2
  -- the other worktree prints the same path, which is no directory's
  have hfile' : v.isUntracked path = true := by
    obtain ⟨file, hfile', hshown'⟩ := mem_listed.1 (mem_listed_congr hstatus hpath)
    rcases shown_cases (w := v) file with heq | hdir
    · rwa [← hshown', heq]
    · exact absurd (hshown' ▸ hdir) hlast
  obtain ⟨f, hf⟩ := Option.isSome_iff_exists.1
    (AList.lookup_isSome.2 (AList.mem_keys.2 (mem_keys_of_isUntracked hfile)))
  obtain ⟨g, hg⟩ := Option.isSome_iff_exists.1
    (AList.lookup_isSome.2 (AList.mem_keys.2 (mem_keys_of_isUntracked hfile')))
  have hsmall : f.content.length ≤ hashLimit := by
    refine hsize f.content ?_
    rw [untrackedContent, if_pos hfile, hf]
    rfl
  have heq := hseen path hpath
  rw [seen, seen, find_printName hquote, find_printName hquote, hf, hg, Option.map_some,
    Option.map_some, if_pos hsmall, Option.some_inj] at heq
  split at heq
  · rw [untrackedContent, untrackedContent, if_pos hfile, if_pos hfile', hf, hg] at hne
    exact hne (congrArg some (Sum.inl.inj heq))
  · cases heq

/-- The fingerprint sees a change exactly when git prints it, or the file is found by the name
that git prints. -/
theorem sees_iff (H : Sha256) (w v : Worktree) (hdiff : w.DiffShows v)
    (hfree : w.CollisionFree v H) : w.Sees v H ↔ w.Sensitive v := by
  refine imp_congr_right fun _ => ?_
  constructor
  · rintro ⟨f, g, hf, hg, hne⟩
    have hw : w.diff.isSome = true := by
      obtain ⟨a, ha, -⟩ := Option.map_eq_some_iff.1 hf
      rw [ha]
      rfl
    have hv : v.diff.isSome = true := by
      obtain ⟨b, hb, -⟩ := Option.map_eq_some_iff.1 hg
      rw [hb]
      rfl
    refine ⟨hw, hv, .inr ((fingerprint_ne_iff hfree hw hv).1 ?_)⟩
    rw [hf, hg]
    exact fun heq => hne (Option.some.inj heq)
  · rintro ⟨hw, hv, hchange⟩
    have hshows : w.Shows v := by
      rcases hchange with htracked | hshows
      · by_contra hno
        simp only [Shows, not_or, not_not] at hno
        exact hdiff hno.2.1 hw hno.2.2.1 htracked
      · exact hshows
    have hne := (fingerprint_ne_iff hfree hw hv).2 hshows
    obtain ⟨a, ha⟩ := Option.isSome_iff_exists.1 hw
    obtain ⟨b, hb⟩ := Option.isSome_iff_exists.1 hv
    simp only [fingerprint, ha, hb, Option.map_some] at hne ⊢
    exact ⟨_, _, rfl, rfl, fun heq => hne (congrArg some heq)⟩

/-! ## A file dropped in -/

def ascii (s : String) : GitPath := s.toList.map fun c => UInt8.ofNat c.toNat

/-- A worktree with one tracked file, and a file of one byte that is not tracked. -/
def withFile (path : GitPath) (hpath : path ≠ [] ∧ path.getLast? ≠ some 0x2f) (b : UInt8) :
    Worktree where
  version := "2.3.36"
  head := "b39aa29"
  index := [ascii "main.c"]
  ignored _ := false
  files := (AList.singleton (ascii "main.c") ⟨[], 0, by decide⟩).insert path ⟨[b], 0, by simp⟩
  changes := []
  diff := some []
  files_path p hp := by
    rcases (AList.mem_insert _).1 (AList.mem_keys.2 hp) with rfl | hmain
    · exact hpath
    · obtain rfl : p = ascii "main.c" := by simpa using AList.mem_keys.1 hmain
      decide
  changes_line _ hline := by cases hline

/-- SHA-256, as far as `new.c` goes with a byte that is 0 or 1. -/
def newFileHashes : Sha256 where
  text x :=
    (if x = [] then
      "e3b0c44298fc1c149afbf4c8996fb92427ae41e4649b934ca495991b7852b855"
    else if x = "?? new.c\n".toList then
      "f519eb42dddd035582aabbb48bd84da973e5c9a58a42e2934e154a201a4e5169"
    else if x =
        "new.c:6e340b9cffb37a989ca544e6bb780a2c78901d3fb33738768511a30617afa01d".toList then
      "d876405dc26f5057ff44ecc1a37350fed464019c0d009a2f19d8785bdd3adbb8"
    else "de9831dbfd069d23a36c3b6c844d10e1aab28bdf275074c3421aa62a07d8b512").toList
  file bytes :=
    (if bytes = [0] then "6e340b9cffb37a989ca544e6bb780a2c78901d3fb33738768511a30617afa01d"
    else if bytes = [1] then "4bf5122f344554c53bde2ebb8cd2b7e3d1600ad631c385a5d7cce23c7785459a"
    else "e3b0c44298fc1c149afbf4c8996fb92427ae41e4649b934ca495991b7852b855").toList
  length_file bytes := by
    split
    · decide
    · split <;> decide
  colon_file bytes := by
    split
    · decide
    · split <;> decide

/-- A file that is not tracked changes nothing that is. -/
theorem not_trackedDiffer_withFile {path : GitPath}
    {hpath : path ≠ [] ∧ path.getLast? ≠ some 0x2f} (hnew : path ≠ ascii "main.c") (b c : UInt8) :
    ¬(withFile path hpath b).TrackedDiffer (withFile path hpath c) := by
  rintro ⟨p, hne⟩
  refine hne ?_
  unfold trackedContent
  by_cases hp : p = ascii "main.c"
  · subst hp
    simp only [withFile, AList.lookup_insert_ne hnew.symm]
  · have hindex : ∀ d, ¬(withFile path hpath d).index.contains p = true := by
      simpa [withFile] using hp
    rw [if_neg (hindex b), if_neg (hindex c)]

/-- A file in a directory with tracked files is seen. -/
theorem sees_newFile : (withFile (ascii "new.c") (by decide) 0).Sees
    (withFile (ascii "new.c") (by decide) 1) newFileHashes :=
  (sees_iff newFileHashes _ _ (fun _ _ _ => not_trackedDiffer_withFile (by decide) 0 1)
    ⟨by decide +kernel, by decide +kernel⟩).2 fun _ =>
    ⟨rfl, rfl, .inr (.inr (.inr (.inr (.inr ⟨ascii "new.c", by decide, by decide⟩))))⟩

/-- A file in a directory of its own is not, and neither is one with a space in its name. -/
theorem not_sees_dropped :
    (∀ H, ¬(withFile (ascii "drop/new.c") (by decide) 0).Sees
      (withFile (ascii "drop/new.c") (by decide) 1) H) ∧
    ∀ H, ¬(withFile (ascii "new file.c") (by decide) 0).Sees
      (withFile (ascii "new file.c") (by decide) 1) H := by
  constructor
  · intro H hsees
    obtain ⟨f, g, hf, hg, hne⟩ :=
      hsees (.inr ⟨ascii "drop/new.c", by decide, by decide, by decide⟩)
    refine hne (Option.some.inj ?_)
    rw [← hf, ← hg]
    refine fingerprint_eq ?_
    rintro (h | h | h | h | h) <;> revert h <;> decide
  · intro H hsees
    obtain ⟨f, g, hf, hg, hne⟩ :=
      hsees (.inr ⟨ascii "new file.c", by decide, by decide, by decide⟩)
    refine hne (Option.some.inj ?_)
    rw [← hf, ← hg]
    refine fingerprint_eq ?_
    rintro (h | h | h | h | h) <;> revert h <;> decide

end Worktree

end Bl616cl.Runtime
