import Mathlib.Data.List.MinMax
import Mathlib.Data.List.Sort
import Mathlib.Data.String.Basic
import Bl616cl.Lib.Top

/-!
# Choosing a multilib directory

`_find_best_multilib` promises the exact directory, then an rv32 directory for a superset of the
requested ISA, then any rv32 directory. What it looks for after the exact one is the first rv32
directory with the ABI, whatever its ISA; and rv32 directories without subdirectories count for
none. `prefers_iff` says for which listings the order promised comes out all the same.
-/

namespace Bl616cl.Runtime

open Bl616cl.Lib

/-! ## ISA strings -/

/-- A name of several letters begins with one of these. -/
def isSingle (c : Char) : Bool := !(['z', 's', 'x'].contains c)

/-- What a single letter stands for. -/
def letter : Char → List (List Char)
  | 'g' => ["i", "m", "a", "f", "d", "zicsr", "zifencei"].map String.toList
  | c => [[c]]

/-- The extensions of a piece between underscores: letters, and a longer name behind them. -/
def piece (cs : List Char) : List (List Char) :=
  (cs.takeWhile isSingle).flatMap letter ++
    match cs.dropWhile isSingle with
    | [] => []
    | name => [name]

/-- The extensions of an ISA string, `rv32` or `rv64` left out. -/
def extensions (isa : String) : List (List Char) :=
  ((isa.toList.drop 4).splitOn '_').flatMap piece

/-- The extension set of `isa` includes that of `march`. -/
def Includes (isa march : String) : Prop := ∀ e ∈ extensions march, e ∈ extensions isa

instance (isa march : String) : Decidable (Includes isa march) :=
  inferInstanceAs (Decidable (∀ e ∈ extensions march, e ∈ extensions isa))

example : extensions "rv32imafc_xtheade" =
    ["i", "m", "a", "f", "c", "xtheade"].map String.toList := by decide

/-! ## The listing -/

/-- A name in the library directory, with the names of its subdirectories when it is one. -/
structure Node where
  name : String
  subdirs : Option (List String)
  deriving DecidableEq

namespace Node

variable (d : Node)

def isDir : Bool := d.subdirs.isSome

/-- `sorted(sd.name for sd in d.iterdir() if sd.is_dir())`. -/
def sortedSubdirs : List String := (d.subdirs.getD []).insertionSort (· ≤ ·)

def isRv32 : Bool := d.isDir && "rv32".toList.isPrefixOf d.name.toList

/-- The directory has the ABI. -/
def Has (mabi : String) : Prop := mabi ∈ d.subdirs.getD []

theorem mem_sortedSubdirs {d : Node} {mabi : String} : mabi ∈ d.sortedSubdirs ↔ d.Has mabi :=
  List.mem_insertionSort _

end Node

/-- The directory `base`. -/
abbrev Listing := List Node

namespace Listing

variable (base : Listing) (march mabi : String)

/-- `(base / arch / sub).is_dir()`. -/
def HasDir (arch sub : String) : Prop := ∃ d ∈ base, d.name = arch ∧ d.Has sub

/-- `rv32_arches`. -/
def rv32Arches : List Node :=
  (base.insertionSort fun c d => c.name ≤ d.name).filter fun d =>
    d.isDir && d.name != "include" && d.name != "include-fixed" && d.isRv32 &&
      !d.sortedSubdirs.isEmpty

/-- The directories that are looked at when no rv32 directory has a subdirectory. -/
def candidates : List Node :=
  (base.filter fun d => d.isDir && d.name != "include" && d.name != "include-fixed").insertionSort
    fun c d => c.name ≤ d.name

instance (d : Node) : Decidable (d.Has mabi) := inferInstanceAs (Decidable (_ ∈ _))

instance (arch sub : String) : Decidable (base.HasDir arch sub) :=
  inferInstanceAs (Decidable (∃ d ∈ base, d.name = arch ∧ d.Has sub))

/-- `_find_best_multilib`: the parts of the path returned. -/
def findBestMultilib : Option (String × String) :=
  if base.HasDir march mabi then some (march, mabi)
  else if base.rv32Arches.isEmpty then
    base.candidates.getLast?.map fun d => (d.name, d.sortedSubdirs.getLast?.getD ".")
  else
    match (base.rv32Arches.insertionSort fun c d => c.name ≤ d.name).find? fun d =>
        mabi ∈ d.sortedSubdirs with
    | some d => some (d.name, mabi)
    | none => do
      let best ← base.rv32Arches.argmax fun d => d.sortedSubdirs.length
      let bestMabi ← best.sortedSubdirs.getLast?
      some (best.name, bestMabi)

/-- An rv32 directory for a superset of the ISA, with the ABI. -/
def Fits (d : Node) : Prop :=
  d ∈ base ∧ d.isRv32 = true ∧ Includes d.name march ∧ d.Has mabi

/-- The preference that the documentation states, and a path that exists. -/
structure Prefers : Prop where
  exactDir : base.HasDir march mabi → base.findBestMultilib march mabi = some (march, mabi)
  superset : ¬base.HasDir march mabi → (∃ d, base.Fits march mabi d) →
    ∃ d, base.Fits march mabi d ∧ base.findBestMultilib march mabi = some (d.name, mabi)
  rv32 : ¬base.HasDir march mabi → (¬∃ d, base.Fits march mabi d) →
    (∃ d ∈ base, d.isRv32 = true) →
    ∃ d ∈ base, d.isRv32 = true ∧ ∃ sub, base.findBestMultilib march mabi = some (d.name, sub)
  found : ∀ arch sub, base.findBestMultilib march mabi = some (arch, sub) →
    base.HasDir arch sub ∨ sub = "." ∧ ∃ d ∈ base, d.name = arch ∧ d.isDir = true

/-- The order of the names agrees with the preference: a superset comes before what is no superset,
and of rv32 directories without subdirectories one comes after all others. -/
def NamesAgree : Prop :=
  base.HasDir march mabi ∨
    ((∃ s, base.Fits march mabi s) → ∀ d ∈ base, d.isRv32 = true → d.Has mabi →
      ¬Includes d.name march → ∃ s, base.Fits march mabi s ∧ s.name < d.name) ∧
    ((∀ d ∈ base, d.isRv32 = true → d.sortedSubdirs = []) → (∃ d ∈ base, d.isRv32 = true) →
      ∀ c ∈ base.candidates, ∃ d ∈ base, d.isRv32 = true ∧ c.name ≤ d.name)

variable {base : Listing} {march mabi : String} {d e : Node}

/-! ## The sorted lists -/

theorem name_ne_include (h : d.isRv32 = true) : d.name ≠ "include" ∧ d.name ≠ "include-fixed" := by
  have hpre := (Bool.and_eq_true_iff.1 h).2
  constructor <;>
  · intro hname
    rw [hname] at hpre
    revert hpre
    decide

theorem mem_rv32Arches :
    d ∈ base.rv32Arches ↔ d ∈ base ∧ d.isRv32 = true ∧ d.sortedSubdirs ≠ [] := by
  simp only [rv32Arches, List.mem_filter, List.mem_insertionSort, Bool.and_eq_true, bne_iff_ne,
    Bool.not_eq_true', List.isEmpty_eq_false_iff]
  constructor
  · rintro ⟨hd, ⟨-, hrv⟩, hne⟩
    exact ⟨hd, hrv, hne⟩
  · rintro ⟨hd, hrv, hne⟩
    obtain ⟨hinc, hfixed⟩ := name_ne_include hrv
    exact ⟨hd, ⟨⟨⟨(Bool.and_eq_true_iff.1 hrv).1, hinc⟩, hfixed⟩, hrv⟩, hne⟩

theorem mem_candidates : d ∈ base.candidates ↔
    d ∈ base ∧ d.isDir = true ∧ d.name ≠ "include" ∧ d.name ≠ "include-fixed" := by
  simp only [candidates, List.mem_filter, List.mem_insertionSort, Bool.and_eq_true, bne_iff_ne,
    and_assoc]

theorem mem_candidates_of_isRv32 (hd : d ∈ base) (h : d.isRv32 = true) : d ∈ base.candidates :=
  mem_candidates.2 ⟨hd, (Bool.and_eq_true_iff.1 h).1, name_ne_include h⟩

theorem sorted_names (l : List Node) :
    (l.insertionSort fun c d => c.name ≤ d.name).Pairwise fun c d => c.name ≤ d.name := by
  have : Std.Total fun c d : Node => c.name ≤ d.name := ⟨fun c d => le_total _ _⟩
  have : IsTrans Node fun c d => c.name ≤ d.name := ⟨fun c d e h h' => h.trans h'⟩
  exact List.pairwise_insertionSort _ _

/-! ## The cases of the search -/

theorem findBestMultilib_exact (h : base.HasDir march mabi) :
    base.findBestMultilib march mabi = some (march, mabi) := if_pos h

/-- Without an exact directory, the first by name of the rv32 directories with the ABI. -/
theorem findBestMultilib_abi (hexact : ¬base.HasDir march mabi) (hd : d ∈ base)
    (hrv : d.isRv32 = true) (habi : d.Has mabi) :
    ∃ first ∈ base, first.isRv32 = true ∧ first.Has mabi ∧
      base.findBestMultilib march mabi = some (first.name, mabi) ∧
      ∀ e ∈ base, e.isRv32 = true → e.Has mabi → first.name ≤ e.name := by
  have hmem : ∀ e ∈ base, e.isRv32 = true → e.Has mabi → e ∈ base.rv32Arches := by
    intro e he herv heabi
    exact mem_rv32Arches.2 ⟨he, herv, List.ne_nil_of_mem (Node.mem_sortedSubdirs.2 heabi)⟩
  have hne : base.rv32Arches.isEmpty = false :=
    List.isEmpty_eq_false_iff.2 (List.ne_nil_of_mem (hmem d hd hrv habi))
  cases hfind : (base.rv32Arches.insertionSort fun c d => c.name ≤ d.name).find? fun d =>
      mabi ∈ d.sortedSubdirs with
  | none =>
    have := List.find?_eq_none.1 hfind d ((List.mem_insertionSort _).2 (hmem d hd hrv habi))
    exact absurd (Node.mem_sortedSubdirs.2 habi) (by simpa using this)
  | some first =>
    obtain ⟨hfirst, hfrv, -⟩ := mem_rv32Arches.1
      ((List.mem_insertionSort _).1 (List.mem_of_find?_eq_some hfind))
    have hfabi : mabi ∈ first.sortedSubdirs := by simpa using List.find?_some hfind
    refine ⟨first, hfirst, hfrv, Node.mem_sortedSubdirs.1 hfabi, ?_, ?_⟩
    · rw [findBestMultilib, if_neg hexact, hne, if_neg Bool.false_ne_true, hfind]
    · intro e he herv heabi
      refine le_of_find?_eq_some (sorted_names _) hfind
        ((List.mem_insertionSort _).2 (hmem e he herv heabi)) ?_
      simpa using Node.mem_sortedSubdirs.2 heabi

/-- Without the ABI in any of them, some rv32 directory that has a subdirectory. -/
theorem findBestMultilib_rv32 (hexact : ¬base.HasDir march mabi)
    (habi : ∀ d ∈ base, d.isRv32 = true → ¬d.Has mabi) (hd : d ∈ base) (hrv : d.isRv32 = true)
    (hsub : d.sortedSubdirs ≠ []) :
    ∃ best ∈ base, best.isRv32 = true ∧ ∃ sub, best.Has sub ∧
      base.findBestMultilib march mabi = some (best.name, sub) := by
  have hmem := mem_rv32Arches.2 ⟨hd, hrv, hsub⟩
  have hne : base.rv32Arches.isEmpty = false :=
    List.isEmpty_eq_false_iff.2 (List.ne_nil_of_mem hmem)
  have hfind : ((base.rv32Arches.insertionSort fun c d => c.name ≤ d.name).find? fun d =>
      mabi ∈ d.sortedSubdirs) = none := by
    refine List.find?_eq_none.2 fun e he => ?_
    obtain ⟨he, herv, -⟩ := mem_rv32Arches.1 ((List.mem_insertionSort _).1 he)
    simpa using fun h => habi e he herv (Node.mem_sortedSubdirs.1 h)
  cases hbest : base.rv32Arches.argmax fun d => d.sortedSubdirs.length with
  | none =>
    rw [List.argmax_eq_none.1 hbest] at hmem
    cases hmem
  | some best =>
    obtain ⟨hb, hbrv, hbsub⟩ := mem_rv32Arches.1 (List.argmax_mem hbest)
    have hlast := List.getLast?_eq_some_getLast hbsub
    refine ⟨best, hb, hbrv, best.sortedSubdirs.getLast hbsub,
      Node.mem_sortedSubdirs.1 (List.getLast_mem hbsub), ?_⟩
    rw [findBestMultilib, if_neg hexact, hne, if_neg Bool.false_ne_true, hfind]
    simp [hbest, hlast]

/-- Without a subdirectory in any of them, the last directory by name of all. -/
theorem findBestMultilib_last (hexact : ¬base.HasDir march mabi)
    (hnone : ∀ d ∈ base, d.isRv32 = true → d.sortedSubdirs = []) :
    base.findBestMultilib march mabi =
      base.candidates.getLast?.map fun d => (d.name, d.sortedSubdirs.getLast?.getD ".") := by
  have hempty : base.rv32Arches = [] := by
    refine List.eq_nil_iff_forall_not_mem.2 fun d hd => ?_
    obtain ⟨hd, hrv, hsub⟩ := mem_rv32Arches.1 hd
    exact hsub (hnone d hd hrv)
  rw [findBestMultilib, if_neg hexact, hempty]
  rfl

theorem search_cases (base : Listing) (march mabi : String) :
    base.HasDir march mabi ∨ ¬base.HasDir march mabi ∧
      ((∃ d ∈ base, d.isRv32 = true ∧ d.Has mabi) ∨
        (∀ d ∈ base, d.isRv32 = true → ¬d.Has mabi) ∧
          ((∃ d ∈ base, d.isRv32 = true ∧ d.sortedSubdirs ≠ []) ∨
            ∀ d ∈ base, d.isRv32 = true → d.sortedSubdirs = [])) := by
  by_cases hexact : base.HasDir march mabi
  · exact .inl hexact
  refine .inr ⟨hexact, ?_⟩
  by_cases habi : ∃ d ∈ base, d.isRv32 = true ∧ d.Has mabi
  · exact .inl habi
  refine .inr ⟨fun d hd hrv h => habi ⟨d, hd, hrv, h⟩, ?_⟩
  by_cases hsub : ∃ d ∈ base, d.isRv32 = true ∧ d.sortedSubdirs ≠ []
  · exact .inl hsub
  · exact .inr fun d hd hrv => by_contra fun h => hsub ⟨d, hd, hrv, h⟩

theorem hasDir_of_findBestMultilib {arch sub : String}
    (h : base.findBestMultilib march mabi = some (arch, sub)) :
    base.HasDir arch sub ∨ sub = "." ∧ ∃ d ∈ base, d.name = arch ∧ d.isDir = true := by
  rcases search_cases base march mabi with hexact | ⟨hexact, ⟨d, hd, hrv, habi⟩ | ⟨habi, hsub⟩⟩
  · rw [findBestMultilib_exact hexact] at h
    cases h
    exact .inl hexact
  · obtain ⟨first, hfirst, -, hfabi, hfind, -⟩ := findBestMultilib_abi hexact hd hrv habi
    rw [hfind] at h
    cases h
    exact .inl ⟨first, hfirst, rfl, hfabi⟩
  rcases hsub with ⟨d, hd, hrv, hne⟩ | hnone
  · obtain ⟨best, hbest, -, s, hs, hfind⟩ := findBestMultilib_rv32 hexact habi hd hrv hne
    rw [hfind] at h
    cases h
    exact .inl ⟨best, hbest, rfl, hs⟩
  · rw [findBestMultilib_last hexact hnone] at h
    obtain ⟨last, hlast, heq⟩ := Option.map_eq_some_iff.1 h
    cases heq
    obtain ⟨hmem, hdir, -, -⟩ := mem_candidates.1 (List.mem_of_getLast? hlast)
    cases hsubs : last.sortedSubdirs.getLast? with
    | none => exact .inr ⟨rfl, last, hmem, rfl, hdir⟩
    | some s =>
      exact .inl ⟨last, hmem, rfl, Node.mem_sortedSubdirs.1 (List.mem_of_getLast? hsubs)⟩

/-! ## The preference -/

/-- With a superset for the ABI the first directory by name with the ABI is one. -/
theorem superset_iff (hexact : ¬base.HasDir march mabi) (hs : base.Fits march mabi d) :
    (∃ s, base.Fits march mabi s ∧ base.findBestMultilib march mabi = some (s.name, mabi)) ↔
      ∀ e ∈ base, e.isRv32 = true → e.Has mabi → ¬Includes e.name march →
        ∃ s, base.Fits march mabi s ∧ s.name < e.name := by
  obtain ⟨first, hfirst, hfrv, hfabi, hfind, hleast⟩ :=
    findBestMultilib_abi hexact hs.1 hs.2.1 hs.2.2.2
  rw [hfind]
  constructor
  · rintro ⟨s, hfits, hname⟩ e he herv heabi hinc
    obtain ⟨hname, -⟩ := Prod.mk.inj (Option.some.inj hname)
    refine ⟨s, hfits, lt_of_le_of_ne (hname ▸ hleast e he herv heabi) fun heq => ?_⟩
    exact hinc (heq ▸ hfits.2.2.1)
  · intro h
    by_cases hinc : Includes first.name march
    · exact ⟨first, ⟨hfirst, hfrv, hinc, hfabi⟩, rfl⟩
    · obtain ⟨s, hfits, hlt⟩ := h first hfirst hfrv hfabi hinc
      exact absurd (hleast s hfits.1 hfits.2.1 hfits.2.2.2) (not_le_of_gt hlt)

/-- Without a subdirectory in any rv32 directory, an rv32 directory is chosen when no name of
another kind is behind them all. -/
theorem last_rv32_iff (hexact : ¬base.HasDir march mabi)
    (hnone : ∀ d ∈ base, d.isRv32 = true → d.sortedSubdirs = []) (hd : d ∈ base)
    (hrv : d.isRv32 = true) :
    (∃ d ∈ base, d.isRv32 = true ∧
        ∃ sub, base.findBestMultilib march mabi = some (d.name, sub)) ↔
      ∀ c ∈ base.candidates, ∃ d ∈ base, d.isRv32 = true ∧ c.name ≤ d.name := by
  have hmem := mem_candidates_of_isRv32 hd hrv
  obtain ⟨last, hlast⟩ := Option.isSome_iff_exists.1
    (List.getLast?_isSome.2 (List.ne_nil_of_mem hmem))
  rw [findBestMultilib_last hexact hnone, hlast, Option.map_some]
  have hgreatest : ∀ c ∈ base.candidates, c.name ≤ last.name := fun c hc =>
    le_getLast_of_mem (sorted_names _) hlast hc
  constructor
  · rintro ⟨e, he, herv, sub, heq⟩ c hc
    obtain ⟨hname, -⟩ := Prod.mk.inj (Option.some.inj heq)
    exact ⟨e, he, herv, hname ▸ hgreatest c hc⟩
  · intro h
    have hlmem := List.mem_of_getLast? hlast
    obtain ⟨e, he, herv, hle⟩ := h last hlmem
    have hname : last.name = e.name :=
      le_antisymm hle (hgreatest e (mem_candidates_of_isRv32 he herv))
    exact ⟨e, he, herv, _, by rw [hname]⟩

/-- `_find_best_multilib` follows its preference exactly when the order of the names does. -/
theorem prefers_iff (base : Listing) (march mabi : String) :
    base.Prefers march mabi ↔ base.NamesAgree march mabi := by
  constructor
  · intro h
    by_cases hexact : base.HasDir march mabi
    · exact .inl hexact
    refine .inr ⟨fun ⟨s, hs⟩ => ?_, fun hnone ⟨d, hd, hrv⟩ => ?_⟩
    · exact (superset_iff hexact hs).1 (h.superset hexact ⟨s, hs⟩)
    · refine (last_rv32_iff hexact hnone hd hrv).1 (h.rv32 hexact ?_ ⟨d, hd, hrv⟩)
      rintro ⟨s, hs, hsrv, -, habi⟩
      exact List.ne_nil_of_mem (Node.mem_sortedSubdirs.2 habi) (hnone s hs hsrv)
  · intro h
    refine ⟨findBestMultilib_exact, fun hexact ⟨s, hs⟩ => ?_, fun hexact hfits ⟨d, hd, hrv⟩ => ?_,
      fun arch sub => hasDir_of_findBestMultilib⟩
    · exact (superset_iff hexact hs).2 ((h.resolve_left hexact).1 ⟨s, hs⟩)
    rcases search_cases base march mabi with hex | ⟨-, ⟨e, he, herv, habi⟩ | ⟨habi, hsub⟩⟩
    · exact absurd hex hexact
    · obtain ⟨first, hfirst, hfrv, -, hfind, -⟩ := findBestMultilib_abi hexact he herv habi
      exact ⟨first, hfirst, hfrv, mabi, hfind⟩
    rcases hsub with ⟨e, he, herv, hne⟩ | hnone
    · obtain ⟨best, hbest, hbrv, sub, -, hfind⟩ :=
        findBestMultilib_rv32 hexact habi he herv hne
      exact ⟨best, hbest, hbrv, sub, hfind⟩
    · exact (last_rv32_iff hexact hnone hd hrv).2
        ((h.resolve_left hexact).2 hnone ⟨d, hd, hrv⟩)

/-- A toolchain with two directories for the ABI: without and with multiplication. -/
def softFloat : Listing :=
  [⟨"rv32i", some ["ilp32"]⟩, ⟨"rv32imac", some ["ilp32"]⟩, ⟨"include", some []⟩]

/-- For `rv32ima` it is the one without. -/
theorem not_prefers_softFloat : ¬softFloat.Prefers "rv32ima" "ilp32" := by
  intro h
  have hexact : ¬softFloat.HasDir "rv32ima" "ilp32" := by decide
  have hfits : softFloat.Fits "rv32ima" "ilp32" ⟨"rv32imac", some ["ilp32"]⟩ :=
    ⟨by decide, by decide, by decide, by decide⟩
  obtain ⟨s, hs, hlt⟩ := (superset_iff hexact hfits).1 (h.superset hexact ⟨_, hfits⟩)
    ⟨"rv32i", some ["ilp32"]⟩ (by decide) (by decide) (by decide) (by decide)
  have hfirst : ∀ d ∈ softFloat, d.isRv32 = true → "rv32i" ≤ d.name := by decide
  exact absurd (hfirst s hs.1 hs.2.1) (not_le_of_gt hlt)

end Listing

end Bl616cl.Runtime
