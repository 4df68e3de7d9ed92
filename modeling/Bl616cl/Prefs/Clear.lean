import Bl616cl.Prefs.Map

/-!
# Clearing a namespace when calls fail

`clear` collects the keys of its namespace in a growing array while `ef_foreach_env` walks the
directory, and deletes them afterwards. Any allocation, directory call or removal on the way may
fail (`ClearFaults`). A walk that is given up half way leaves its directory open in LittleFS; what
that does to later calls is not modelled.
-/

namespace Bl616cl.Prefs

open Preferences

/-- What the calls below one `clear` come to. -/
structure ClearFaults where
  dirOpenOk : Bool
  /-- The `lfs_dir_read`s, in order. -/
  readOk : Nat → Bool
  heap : Heap
  /-- Whether the `lfs_remove`s take their file away, in order. -/
  removeOk : Nat → Bool

def ClearFaults.clean : ClearFaults := ⟨true, fun _ => true, [], fun _ => true⟩

/-! ## The walk -/

/-- What reading the directory gives: its own two entries, then the files. -/
def listing (store : Store) : List (List UInt8) := [0x2E] :: [0x2E, 0x2E] :: store.keys

/-- The loop of `ef_foreach_env`; read `i` comes next. An error of a read ends it like the end of
the directory does, an error of the callback is returned. -/
def scan {σ : Type} (cb : σ → List UInt8 → σ × Bool) (readOk : Nat → Bool) :
    Nat → List (List UInt8) → σ → σ × Bool
  | _, [], arg => (arg, true)
  | i, name :: names, arg =>
    if !readOk i then (arg, true)
    else if name = [0x2E] ∨ name = [0x2E, 0x2E] then scan cb readOk (i + 1) names arg
    else
      let r := cb arg (kvPath2Key name)
      if !r.2 then (r.1, false) else scan cb readOk (i + 1) names r.1

/-- `ef_foreach_env`, and whether it returns `EF_NO_ERR`. -/
def efForeachEnvWith {σ : Type} (cb : σ → List UInt8 → σ × Bool) (dirOpenOk : Bool)
    (readOk : Nat → Bool) (store : Store) (arg : σ) : σ × Bool :=
  if !dirOpenOk then (arg, false) else scan cb readOk 0 (listing store) arg

/-! ## Collecting -/

/-- `ns_scan_ctx`, with what is left of the heap. -/
structure NsScanCtx where
  keys : List (List UInt8)
  cap : Nat
  heap : Heap

def newCap (cap : Nat) : Nat := if cap = 0 then 8 else cap * 2

/-- Make room for one more key. -/
def NsScanCtx.grow (ctx : NsScanCtx) : NsScanCtx × Bool :=
  if ctx.keys.length = ctx.cap then
    let r := alloc ctx.heap
    if !r.1 then (⟨ctx.keys, ctx.cap, r.2⟩, false) else (⟨ctx.keys, newCap ctx.cap, r.2⟩, true)
  else (ctx, true)

/-- What `dup_key` copies: up to the first NUL. -/
def dupKey (key : List UInt8) : List UInt8 := key.takeWhile (· ≠ 0)

/-- `collect_cb`, and whether it returns `EF_NO_ERR`. -/
def collectCb (ns : List UInt8) (ctx : NsScanCtx) (key : List UInt8) : NsScanCtx × Bool :=
  if !nsMatch ns key then (ctx, true)
  else
    let grown := ctx.grow
    if !grown.2 then (grown.1, false)
    else
      let copy := alloc grown.1.heap
      if !copy.1 then (⟨grown.1.keys, grown.1.cap, copy.2⟩, false)
      else (⟨grown.1.keys ++ [dupKey key], grown.1.cap, copy.2⟩, true)

/-! ## Deleting -/

/-- `ef_del_env`, where `lfs_remove` may fail. -/
def efDelEnvWith (removeOk : Bool) (store : Store) (key : List UInt8) : Store × Bool :=
  match kvKey2Path key with
  | none => (store, false)
  | some path => (if removeOk then store.erase path else store, true)

/-- The second loop of `clear`, from deletion `i` on. -/
def deleteAll (removeOk : Nat → Bool) : Nat → List (List UInt8) → Store → Store
  | _, [], store => store
  | i, key :: keys, store =>
    deleteAll removeOk (i + 1) keys (efDelEnvWith (removeOk i) store key).1

namespace Preferences

variable (p : Preferences) (store : Store) (f : ClearFaults)

/-- What `clear` collects. -/
def collected : List (List UInt8) :=
  (efForeachEnvWith (collectCb p.ns.text) f.dirOpenOk f.readOk store ⟨[], 0, f.heap⟩).1.keys

def clearWith : Store × Bool :=
  if p.ns.length = 0 then (store, false)
  else (deleteAll f.removeOk 0 (p.collected store f) store, true)

/-! ## The property and its condition -/

/-- A name that `begin` takes. -/
def IsName (n : List UInt8) : Prop := n ≠ [] ∧ n.length ≤ 15 ∧ 0 ∉ n

/-- Success means that the namespace is empty, and other namespaces keep their keys. -/
structure ClearOk : Prop where
  emptied : (p.clearWith store f).2 = true → p.freeEntries (p.clearWith store f).1 = 0 ∧
    ∀ key, nsMatch p.ns.text key = true → efGetEnvBlob (p.clearWith store f).1 key = none
  others : ∀ n, IsName n → n ≠ p.ns.text → ∀ k : CStr,
    efGetEnvBlob (p.clearWith store f).1 (joined n k) = efGetEnvBlob store (joined n k)

/-- The file is one of the namespace. -/
def own (ns name : List UInt8) : Bool := nsMatch ns (kvPath2Key name)

/-- The namespace's files, in directory order. -/
def mine : List (List UInt8) := store.keys.filter (own p.ns.text)

/-- The allocations it takes to collect that many keys more. -/
def allocsFor (cap count : Nat) : Nat → Nat
  | 0 => 0
  | n + 1 => if count = cap then 2 + allocsFor (newCap cap) (count + 1) n
    else 1 + allocsFor cap (count + 1) n

/-- Every read up to a file of the namespace succeeds. -/
def ReadsThrough (ns : List UInt8) (readOk : Nat → Bool) (i : Nat) (names : List (List UInt8)) :
    Prop :=
  ∀ (j : Nat) (name : List UInt8), names[j]? = some name → own ns name = true →
    ∀ t ≤ j, readOk (i + t) = true

/-- The faults spare the namespace's files, each of them is one that a key has, and that key is of
no other namespace. -/
structure Undisturbed : Prop where
  opened : p.mine store ≠ [] → f.dirOpenOk = true
  read : ReadsThrough p.ns.text f.readOk 0 (listing store)
  allocated : ∀ i < allocsFor 0 0 (p.mine store).length, f.heap.ok i = true
  removed : ∀ i < (p.mine store).length, f.removeOk i = true
  canonical : ∀ name ∈ p.mine store, kvKey2Path (dupKey (kvPath2Key name)) = some name
  alone : ∀ name ∈ p.mine store, ∀ n, IsName n → n ≠ p.ns.text → ∀ k : CStr,
    kvPath2Key name ≠ joined n k

end Preferences

/-! ## Collecting, call by call -/

variable {ns key name : List UInt8} {ctx : NsScanCtx} {i : Nat} {readOk removeOk : Nat → Bool}
  {names keys : List (List UInt8)} {store : Store}

/-- The allocations that the next key takes. -/
def NsScanCtx.need (ctx : NsScanCtx) : Nat := if ctx.keys.length = ctx.cap then 2 else 1

theorem collectCb_other (h : nsMatch ns key = false) : collectCb ns ctx key = (ctx, true) := by
  simp [collectCb, h]

/-- Collecting fails if one of the allocations does; the array is then as before. -/
theorem collectCb_failed (h : nsMatch ns key = true)
    (ha : ¬ ∀ t < ctx.need, ctx.heap.ok t = true) :
    (collectCb ns ctx key).1.keys = ctx.keys ∧ (collectCb ns ctx key).2 = false := by
  unfold NsScanCtx.need at ha
  unfold collectCb NsScanCtx.grow
  by_cases hfull : ctx.keys.length = ctx.cap
  · by_cases h0 : ctx.heap.ok 0 = true
    · have h1 : ctx.heap.ok 1 = false := by
        rw [if_pos hfull] at ha
        by_contra h1
        refine ha fun t ht => ?_
        obtain rfl | rfl : t = 0 ∨ t = 1 := by omega
        · exact h0
        · simpa using h1
      simp [h, hfull, alloc_fst, ok_alloc, h0, h1]
    · simp [h, hfull, alloc_fst, h0]
  · have h0 : ctx.heap.ok 0 = false := by
      rw [if_neg hfull] at ha
      by_contra h0
      refine ha fun t ht => ?_
      obtain rfl : t = 0 := by omega
      simpa using h0
    simp [h, hfull, alloc_fst, h0]

theorem collectCb_done (h : nsMatch ns key = true) (ha : ∀ t < ctx.need, ctx.heap.ok t = true) :
    ∃ ctx', collectCb ns ctx key = (ctx', true) ∧ ctx'.keys = ctx.keys ++ [dupKey key] ∧
      ctx'.cap = (if ctx.keys.length = ctx.cap then newCap ctx.cap else ctx.cap) ∧
      ∀ t, ctx'.heap.ok t = ctx.heap.ok (ctx.need + t) := by
  unfold NsScanCtx.need at ha ⊢
  unfold collectCb NsScanCtx.grow
  by_cases hfull : ctx.keys.length = ctx.cap
  · rw [if_pos hfull] at ha
    have h0 := ha 0 (by omega)
    have h1 := ha 1 (by omega)
    refine ⟨⟨ctx.keys ++ [dupKey key], newCap ctx.cap, (alloc (alloc ctx.heap).2).2⟩, ?_, rfl, ?_,
      fun t => ?_⟩
    · simp [h, hfull, alloc_fst, ok_alloc, h0, h1]
    · rw [if_pos hfull]
    · rw [if_pos hfull, ok_alloc, ok_alloc, Nat.add_comm 2]
  · rw [if_neg hfull] at ha
    have h0 := ha 0 (by omega)
    refine ⟨⟨ctx.keys ++ [dupKey key], ctx.cap, (alloc ctx.heap).2⟩, ?_, rfl, ?_, fun t => ?_⟩
    · simp [h, hfull, alloc_fst, h0]
    · rw [if_neg hfull]
    · rw [if_neg hfull, ok_alloc, Nat.add_comm 1]

theorem allocsFor_succ (n : Nat) : allocsFor ctx.cap ctx.keys.length (n + 1) = ctx.need +
    allocsFor (if ctx.keys.length = ctx.cap then newCap ctx.cap else ctx.cap)
      (ctx.keys.length + 1) n := by
  unfold NsScanCtx.need
  rw [allocsFor]
  split <;> rfl

/-! ## Collecting, over the walk -/

theorem readsThrough_cons : ReadsThrough ns readOk i (name :: names) ↔
    ((name :: names).filter (own ns) ≠ [] → readOk i = true) ∧
      ReadsThrough ns readOk (i + 1) names := by
  constructor
  · intro h
    refine ⟨fun hne => ?_, fun j other hj hown t ht => ?_⟩
    · obtain ⟨other, hmem⟩ := List.exists_mem_of_ne_nil _ hne
      obtain ⟨hmem, hown⟩ := List.mem_filter.mp hmem
      obtain ⟨j, hj⟩ := List.getElem?_of_mem hmem
      exact h j other hj hown 0 (Nat.zero_le j)
    · have hread := h (j + 1) other hj hown (t + 1) (by omega)
      rwa [Nat.add_assoc, Nat.add_comm 1]
  · rintro ⟨hhead, htail⟩ j other hj hown t ht
    have hmem := List.mem_of_getElem? hj
    have hne := List.ne_nil_of_mem (List.mem_filter.mpr ⟨hmem, hown⟩)
    cases t with
    | zero => exact hhead hne
    | succ t =>
      cases j with
      | zero => omega
      | succ j =>
        have hread := htail j other hj hown t (by omega)
        rwa [Nat.add_assoc, Nat.add_comm 1] at hread

/-- The directory's own entries are of no namespace. -/
theorem own_dots (h : name = [0x2E] ∨ name = [0x2E, 0x2E]) : own ns name = false := by
  rw [own, nsMatch, Bool.and_eq_false_iff]
  right
  rcases h with rfl | rfl
  · have hkey : kvPath2Key [0x2E] = [0x2E] := by decide
    rw [hkey]
    rcases ns with - | ⟨a, - | ⟨b, ns⟩⟩ <;> rfl
  · have hkey : kvPath2Key [0x2E, 0x2E] = [0x2E, 0x2E] := by decide
    rw [hkey]
    rcases ns with - | ⟨a, - | ⟨b, - | ⟨c, ns⟩⟩⟩ <;> rfl

theorem forall_lt_add {P : Nat → Prop} (m n : Nat) :
    (∀ t < m + n, P t) ↔ (∀ t < m, P t) ∧ ∀ t < n, P (m + t) := by
  constructor
  · exact fun h => ⟨fun t ht => h t (by omega), fun t ht => h (m + t) (by omega)⟩
  · rintro ⟨hfirst, hrest⟩ t ht
    by_cases htm : t < m
    · exact hfirst t htm
    · have hlate := hrest (t - m) (by omega)
      rwa [Nat.add_sub_cancel' (Nat.not_lt.mp htm)] at hlate

theorem scan_pass (hread : readOk i = true) (hown : own ns name = false) :
    scan (collectCb ns) readOk i (name :: names) ctx =
      scan (collectCb ns) readOk (i + 1) names ctx := by
  rw [scan]
  split
  · simp_all
  · split
    · rfl
    · rw [collectCb_other hown]
      rfl

theorem scan_own (hread : readOk i = true) (hown : own ns name = true) :
    scan (collectCb ns) readOk i (name :: names) ctx =
      if (collectCb ns ctx (kvPath2Key name)).2 then
        scan (collectCb ns) readOk (i + 1) names (collectCb ns ctx (kvPath2Key name)).1
      else ((collectCb ns ctx (kvPath2Key name)).1, false) := by
  have hdots : ¬ (name = [0x2E] ∨ name = [0x2E, 0x2E]) := by
    intro h
    rw [own_dots h] at hown
    cases hown
  rw [scan, hread, if_neg (by decide), if_neg hdots]
  by_cases hcb : (collectCb ns ctx (kvPath2Key name)).2 = true
  · simp [hcb]
  · simp [hcb]

/-- The walk collects the first files of the namespace, and all of them if and only if every read
up to the last one and every allocation for them succeeds. -/
theorem scan_collects (ns : List UInt8) (readOk : Nat → Bool) (i : Nat) (names : List (List UInt8))
    (ctx : NsScanCtx) : ∃ c ≤ (names.filter (own ns)).length,
    (scan (collectCb ns) readOk i names ctx).1.keys = ctx.keys ++
      ((names.filter (own ns)).take c).map (fun name => dupKey (kvPath2Key name)) ∧
    (c = (names.filter (own ns)).length ↔ ReadsThrough ns readOk i names ∧
      ∀ t < allocsFor ctx.cap ctx.keys.length (names.filter (own ns)).length,
        ctx.heap.ok t = true) := by
  induction names generalizing i ctx with
  | nil => exact ⟨0, le_rfl, by simp [scan], by simp [ReadsThrough, allocsFor]⟩
  | cons name names ih =>
    rw [readsThrough_cons]
    by_cases hread : readOk i = true
    · simp only [hread, implies_true, true_and]
      by_cases hown : own ns name = true
      · rw [scan_own hread hown, List.filter_cons_of_pos hown, List.length_cons, allocsFor_succ,
          forall_lt_add]
        by_cases hneed : ∀ t < ctx.need, ctx.heap.ok t = true
        · obtain ⟨ctx', hcb, hkeys, hcap, hheap⟩ := collectCb_done hown hneed
          obtain ⟨c, hc, hscan, hall⟩ := ih (i + 1) ctx'
          rw [hkeys, List.length_append, hcap] at hall
          simp only [hheap] at hall
          refine ⟨c + 1, Nat.succ_le_succ hc, ?_, ?_⟩
          · rw [hcb, if_pos rfl, hscan, hkeys]
            simp
          · rw [Nat.succ_inj, hall]
            exact ⟨fun h => ⟨h.1, hneed, h.2⟩, fun h => ⟨h.1, h.2.2⟩⟩
        · obtain ⟨hkeys, hfail⟩ := collectCb_failed hown hneed
          refine ⟨0, Nat.zero_le _, ?_, ?_⟩
          · rw [hfail, if_neg (by decide), hkeys]
            simp
          · exact ⟨fun h => absurd h (Nat.succ_ne_zero _).symm, fun h => absurd h.2.1 hneed⟩
      · rw [Bool.not_eq_true] at hown
        rw [scan_pass hread hown, List.filter_cons_of_neg (by simp [hown])]
        exact ih (i + 1) ctx
    · refine ⟨0, Nat.zero_le _, by simp [scan, hread], ?_⟩
      constructor
      · intro hzero
        have hnil := List.length_eq_zero_iff.mp hzero.symm
        rw [hnil]
        refine ⟨⟨fun h => absurd rfl h, fun j other hj hown => ?_⟩, fun t ht => absurd ht ?_⟩
        · have hmem := List.mem_cons_of_mem name (List.mem_of_getElem? hj)
          exact absurd hnil (List.ne_nil_of_mem (List.mem_filter.mpr ⟨hmem, hown⟩))
        · exact Nat.not_lt_zero t
      · rintro ⟨⟨hhead, -⟩, -⟩
        by_contra hlen
        exact hread (hhead fun hnil => hlen (by rw [hnil]; rfl))

/-! ## Deleting -/

/-- One of the deletions takes this file away. -/
def Hit (removeOk : Nat → Bool) (i : Nat) (keys : List (List UInt8)) (name : List UInt8) : Prop :=
  ∃ (j : Nat) (key : List UInt8), keys[j]? = some key ∧ removeOk (i + j) = true ∧
    kvKey2Path key = some name

theorem hit_cons : Hit removeOk i (key :: keys) name ↔
    (removeOk i = true ∧ kvKey2Path key = some name) ∨ Hit removeOk (i + 1) keys name := by
  constructor
  · rintro ⟨j, other, hj, hok, hpath⟩
    cases j with
    | zero =>
      obtain rfl := Option.some.inj hj
      exact Or.inl ⟨hok, hpath⟩
    | succ j => exact Or.inr ⟨j, other, hj, by rwa [Nat.add_assoc, Nat.add_comm 1], hpath⟩
  · rintro (⟨hok, hpath⟩ | ⟨j, other, hj, hok, hpath⟩)
    · exact ⟨0, key, rfl, hok, hpath⟩
    · exact ⟨j + 1, other, hj, by rwa [Nat.add_assoc, Nat.add_comm 1] at hok, hpath⟩

theorem lookup_del (ok : Bool) : (efDelEnvWith ok store key).1.lookup name =
    if ok = true ∧ kvKey2Path key = some name then none else store.lookup name := by
  unfold efDelEnvWith
  cases hpath : kvKey2Path key with
  | none => simp
  | some path =>
    cases ok with
    | false => simp
    | true =>
      by_cases hname : path = name
      · subst hname
        simp
      · simp [hname, AList.lookup_erase_ne (Ne.symm hname)]

theorem lookup_deleteAll (h : ¬ Hit removeOk i keys name) :
    (deleteAll removeOk i keys store).lookup name = store.lookup name := by
  induction keys generalizing i store with
  | nil => rfl
  | cons key keys ih =>
    rw [hit_cons, not_or] at h
    rw [deleteAll, ih h.2, lookup_del, if_neg h.1]

theorem lookup_deleteAll_of_hit (h : Hit removeOk i keys name) :
    (deleteAll removeOk i keys store).lookup name = none := by
  induction keys generalizing i store with
  | nil =>
    obtain ⟨j, key, hj, -⟩ := h
    cases hj
  | cons key keys ih =>
    rw [deleteAll]
    by_cases hlate : Hit removeOk (i + 1) keys name
    · exact ih hlate
    · rcases hit_cons.mp h with hnow | hlate'
      · rw [lookup_deleteAll hlate, lookup_del, if_pos hnow]
      · exact absurd hlate' hlate

theorem dupKey_dupKey (key : List UInt8) : dupKey (dupKey key) = dupKey key := by
  simp [dupKey, List.takeWhile_takeWhile]

theorem dupKey_of_noNul (h : 0 ∉ key) : dupKey key = key :=
  List.takeWhile_eq_self_iff.mpr fun _ hc => decide_eq_true fun h0 => h (h0 ▸ hc)

/-- Copies of the first files of the namespace hit them all if and only if they are of all of them,
no removal fails and each file is one that a key has. -/
theorem hit_copies {files : List (List UInt8)} (hnodup : files.Nodup) {c : Nat}
    (hc : c ≤ files.length) : (∀ name ∈ files,
      Hit removeOk 0 ((files.take c).map fun name => dupKey (kvPath2Key name)) name) ↔
    c = files.length ∧ (∀ t < files.length, removeOk t = true) ∧
      ∀ name ∈ files, kvKey2Path (dupKey (kvPath2Key name)) = some name := by
  constructor
  · intro h
    have hcanon : ∀ name ∈ files, kvKey2Path (dupKey (kvPath2Key name)) = some name := by
      intro name hmem
      obtain ⟨j, key, hj, -, hpath⟩ := h name hmem
      have hkey := List.mem_of_getElem? hj
      obtain ⟨other, -, rfl⟩ := List.mem_map.mp hkey
      rw [kvPath2Key_kvKey2Path hpath, dupKey_dupKey, hpath]
    have hown : ∀ t < files.length, t < c ∧ removeOk t = true := by
      intro t ht
      obtain ⟨j, key, hj, hok, hpath⟩ := h files[t] (List.getElem_mem ht)
      obtain ⟨other, hother, rfl⟩ := Option.map_eq_some_iff.mp (List.getElem?_map .. ▸ hj)
      obtain ⟨hjc, hother⟩ := Option.ite_none_right_eq_some.mp (List.getElem?_take ▸ hother)
      obtain ⟨hlt, rfl⟩ := List.getElem?_eq_some_iff.mp hother
      rw [hcanon _ (List.getElem_mem hlt)] at hpath
      obtain rfl := (hnodup.getElem_inj_iff).mp (Option.some.inj hpath)
      rw [Nat.zero_add] at hok
      exact ⟨hjc, hok⟩
    refine ⟨le_antisymm hc ?_, fun t ht => (hown t ht).2, hcanon⟩
    by_contra hlt
    exact absurd (hown c (by omega)).1 (Nat.lt_irrefl c)
  · rintro ⟨rfl, hok, hcanon⟩ name hmem
    obtain ⟨t, ht, rfl⟩ := List.getElem_of_mem hmem
    refine ⟨t, dupKey (kvPath2Key files[t]), ?_, ?_, hcanon _ hmem⟩
    · simp [ht]
    · rw [Nat.zero_add]
      exact hok t ht

namespace Preferences

variable {p : Preferences} {f : ClearFaults}

theorem mine_eq (p : Preferences) (store : Store) :
    (listing store).filter (own p.ns.text) = p.mine store := by
  rw [listing, mine, List.filter_cons_of_neg (by simp [own_dots]),
    List.filter_cons_of_neg (by simp [own_dots])]

theorem nodup_mine : (p.mine store).Nodup := by
  refine List.Nodup.filter _ ?_
  exact store.nodupKeys

theorem mem_mine : name ∈ p.mine store ↔ name ∈ store.keys ∧ own p.ns.text name = true :=
  List.mem_filter

theorem collected_eq (p : Preferences) (store : Store) (f : ClearFaults) :
    ∃ c ≤ (p.mine store).length,
      p.collected store f =
        ((p.mine store).take c).map (fun name => dupKey (kvPath2Key name)) ∧
      (c = (p.mine store).length ↔ (p.mine store ≠ [] → f.dirOpenOk = true) ∧
        ReadsThrough p.ns.text f.readOk 0 (listing store) ∧
        ∀ t < allocsFor 0 0 (p.mine store).length, f.heap.ok t = true) := by
  obtain ⟨c, hc, hkeys, hall⟩ := scan_collects p.ns.text f.readOk 0 (listing store) ⟨[], 0, f.heap⟩
  rw [mine_eq] at hc hkeys hall
  by_cases hopen : f.dirOpenOk = true
  · refine ⟨c, hc, ?_, ?_⟩
    · simp [collected, efForeachEnvWith, hopen, hkeys]
    · simp [hopen, hall]
  · refine ⟨0, Nat.zero_le _, by simp [collected, efForeachEnvWith, hopen], ?_⟩
    constructor
    · intro hzero
      have hnil := List.length_eq_zero_iff.mp hzero.symm
      have hrest := hall.mp (by rw [hnil] at hc ⊢; exact Nat.le_zero.mp hc)
      exact ⟨fun hne => absurd hnil hne, hrest⟩
    · rintro ⟨hne, -⟩
      by_contra hlen
      exact hopen (hne fun hnil => hlen (by rw [hnil]; rfl))

theorem freeEntries_eq_zero (hns : p.ns.text ≠ []) :
    p.freeEntries store = 0 ↔ ∀ name ∈ store.keys, own p.ns.text name = false := by
  rw [freeEntries, if_neg (length_ns hns), List.length_eq_zero_iff, List.filter_eq_nil_iff]
  simp [efForeachEnv, own]

theorem mem_keys_deleteAll : name ∈ (deleteAll removeOk i keys store).keys ↔
    name ∈ store.keys ∧ ¬ Hit removeOk i keys name := by
  rw [← AList.mem_keys, ← AList.lookup_isSome, ← AList.mem_keys, ← AList.lookup_isSome]
  by_cases hhit : Hit removeOk i keys name
  · simp [lookup_deleteAll_of_hit hhit, hhit]
  · simp [lookup_deleteAll hhit, hhit]

theorem freeEntries_deleteAll (hns : p.ns.text ≠ []) :
    p.freeEntries (deleteAll removeOk 0 keys store) = 0 ↔
      ∀ name ∈ p.mine store, Hit removeOk 0 keys name := by
  rw [freeEntries_eq_zero hns]
  constructor
  · intro h name hmem
    obtain ⟨hkey, hown⟩ := mem_mine.mp hmem
    by_contra hhit
    rw [h name (mem_keys_deleteAll.mpr ⟨hkey, hhit⟩)] at hown
    cases hown
  · intro h name hmem
    obtain ⟨hkey, hhit⟩ := mem_keys_deleteAll.mp hmem
    by_contra hown
    rw [Bool.not_eq_false] at hown
    exact hhit (h name (mem_mine.mpr ⟨hkey, hown⟩))

theorem clearWith_unnamed (hns : p.ns.text = []) : p.clearWith store f = (store, false) := by
  simp [clearWith, WString.length, hns]

theorem clearWith_named (hns : p.ns.text ≠ []) : p.clearWith store f =
    (deleteAll f.removeOk 0 (p.collected store f) store, true) := by
  rw [clearWith, if_neg (length_ns hns)]

/-- Whatever fails, the namespace is empty afterwards exactly if nothing that matters did. -/
theorem freeEntries_clearWith (hns : p.ns.text ≠ []) :
    p.freeEntries (p.clearWith store f).1 = 0 ↔
      ((p.mine store ≠ [] → f.dirOpenOk = true) ∧
        ReadsThrough p.ns.text f.readOk 0 (listing store) ∧
        ∀ t < allocsFor 0 0 (p.mine store).length, f.heap.ok t = true) ∧
      (∀ t < (p.mine store).length, f.removeOk t = true) ∧
      ∀ name ∈ p.mine store, kvKey2Path (dupKey (kvPath2Key name)) = some name := by
  obtain ⟨c, hc, hkeys, hall⟩ := collected_eq p store f
  rw [clearWith_named hns, freeEntries_deleteAll hns, hkeys, hit_copies nodup_mine hc, hall]

theorem efGetEnvBlob_of_empty (hns : p.ns.text ≠ []) (h : p.freeEntries store = 0)
    (hkey : nsMatch p.ns.text key = true) : efGetEnvBlob store key = none := by
  by_contra hsome
  have hmem := mem_efForeachEnv hsome
  obtain ⟨name, hname, rfl⟩ := List.mem_map.mp hmem
  have hown := (freeEntries_eq_zero hns).mp h name hname
  rw [own, hkey] at hown
  cases hown

/-- A key that no file of the namespace is copied to keeps its value. -/
theorem efGetEnvBlob_clearWith
    (h : ∀ name ∈ p.mine store, dupKey (kvPath2Key name) ≠ key) :
    efGetEnvBlob (p.clearWith store f).1 key = efGetEnvBlob store key := by
  by_cases hns : p.ns.text = []
  · rw [clearWith_unnamed hns]
  · rw [clearWith_named hns, efGetEnvBlob, efGetEnvBlob]
    cases hpath : kvKey2Path key with
    | none => rfl
    | some path =>
      refine lookup_deleteAll ?_
      rintro ⟨j, copy, hj, -, hcopy⟩
      obtain ⟨c, -, hkeys, -⟩ := collected_eq p store f
      rw [hkeys] at hj
      obtain ⟨name, hname, rfl⟩ := List.mem_map.mp (List.mem_of_getElem? hj)
      exact h name (List.mem_of_mem_take hname) (kvKey2Path_inj hcopy hpath)

/-- Whatever fails, a key that does not start with the name and a slash is left alone. -/
theorem efGetEnvBlob_clearWith_other (hnul : 0 ∉ p.ns.text) (h : nsMatch p.ns.text key = false) :
    efGetEnvBlob (p.clearWith store f).1 key = efGetEnvBlob store key := by
  refine efGetEnvBlob_clearWith fun name hname he => ?_
  have hown := (mem_mine.mp hname).2
  rw [own, nsMatch_iff _ hnul] at hown
  have hcopy : p.ns.text ++ [0x2F] <+: dupKey (kvPath2Key name) := by
    obtain ⟨rest, hrest⟩ := hown
    rw [dupKey, ← hrest, List.takeWhile_append_of_pos]
    · exact List.prefix_append _ _
    · intro c hc
      rcases List.mem_append.mp hc with hc | hc
      · exact decide_eq_true fun h0 => hnul (h0 ▸ hc)
      · rw [List.mem_singleton.mp hc]
        decide
  rw [he, ← nsMatch_iff _ hnul, h] at hcopy
  cases hcopy

/-- Without faults this is `clear`. -/
theorem clearWith_clean (h : ∀ key ∈ efForeachEnv store, 0 ∉ key) :
    p.clearWith store .clean = p.clear store := by
  by_cases hns : p.ns.text = []
  · simp [clearWith_unnamed hns, Preferences.clear, WString.length, hns]
  · have hkeys : p.collected store .clean = (efForeachEnv store).filter (nsMatch p.ns.text) := by
      obtain ⟨c, -, hkeys, hall⟩ := collected_eq p store .clean
      have hc := hall.mpr ⟨fun _ => rfl, fun _ _ _ _ _ _ => rfl, fun _ _ => rfl⟩
      rw [hkeys, hc, List.take_length, mine, efForeachEnv, List.filter_map]
      refine List.map_congr_left fun name hname => ?_
      have hnul := h _ (List.mem_map_of_mem (List.mem_filter.mp hname).1)
      exact dupKey_of_noNul hnul
    have hdel : ∀ (i : Nat) (keys : List (List UInt8)) (store : Store),
        deleteAll ClearFaults.clean.removeOk i keys store =
          keys.foldl (fun store key => (efDelEnv store key).1) store := by
      intro i keys
      induction keys generalizing i with
      | nil => exact fun store => rfl
      | cons key keys ih =>
        intro store
        have hone : efDelEnvWith (ClearFaults.clean.removeOk i) store key = efDelEnv store key := by
          unfold efDelEnvWith efDelEnv
          cases kvKey2Path key <;> rfl
        rw [deleteAll, ih, List.foldl_cons, hone]
    rw [clearWith_named hns, hkeys, hdel, Preferences.clear, if_neg (length_ns hns)]

theorem dupKey_joined {n : List UInt8} {k : CStr} (hn : 0 ∉ n) :
    dupKey (joined n k) = joined n k :=
  dupKey_of_noNul (by simp [joined, hn, k.noNul])

/-- **Clear**: when it reports success the namespace is empty, and other namespaces are unchanged,
if and only if no call that one of the namespace's files depends on fails, each of them is a file
that a key has and none of these keys is one of another namespace. -/
theorem clearOk_iff (p : Preferences) (store : Store) (f : ClearFaults) :
    p.ClearOk store f ↔ p.ns.text = [] ∨ p.Undisturbed store f := by
  by_cases hns : p.ns.text = []
  · refine ⟨fun _ => Or.inl hns, fun _ => ⟨fun hdone => ?_, fun n _ _ k => ?_⟩⟩
    · rw [clearWith_unnamed hns] at hdone
      cases hdone
    · rw [clearWith_unnamed hns]
  · constructor
    · rintro ⟨hemptied, hothers⟩
      obtain ⟨hzero, hgone⟩ := hemptied (by rw [clearWith_named hns])
      obtain ⟨⟨hopened, hread, hallocated⟩, hremoved, hcanonical⟩ :=
        (freeEntries_clearWith hns).mp hzero
      refine Or.inr ⟨hopened, hread, hallocated, hremoved, hcanonical, ?_⟩
      intro name hmem n hn hother k hkey
      obtain ⟨hfile, hown⟩ := mem_mine.mp hmem
      have hpath := hcanonical name hmem
      rw [hkey, dupKey_joined hn.2.2] at hpath
      rw [own, hkey] at hown
      -- The key is gone from this namespace, but should be as before in the other one.
      have hsame := hothers n hn hother k
      rw [hgone _ hown] at hsame
      simp only [efGetEnvBlob, hpath] at hsame
      rw [← AList.mem_keys, ← AList.lookup_isSome, ← hsame] at hfile
      exact absurd hfile Bool.false_ne_true
    · rintro (hnil | h)
      · exact absurd hnil hns
      · have hzero := (freeEntries_clearWith hns).mpr
          ⟨⟨h.opened, h.read, h.allocated⟩, h.removed, h.canonical⟩
        refine ⟨fun _ => ⟨hzero, fun key hkey => efGetEnvBlob_of_empty hns hzero hkey⟩, ?_⟩
        intro n hn hother k
        refine efGetEnvBlob_clearWith fun name hmem hcopy => ?_
        have hcanon := h.canonical name hmem
        rw [hcopy] at hcanon
        exact h.alone name hmem n hn hother k (kvPath2Key_kvKey2Path hcanon)

/-! ## A removal that fails -/

def failedRemoval : ClearFaults := { ClearFaults.clean with removeOk := fun _ => false }

/-- The namespace `a` with one key. -/
def oneKey : Store := [(⟨[0x61, 0x7D, 0x0F, 0x62], [0]⟩ : Sigma fun _ => List UInt8)].toAList

/-- `clear` reports success and the key is still there. -/
theorem not_clearOk_removal : ¬ ∀ (p : Preferences) (store : Store) (f : ClearFaults),
    p.ClearOk store f := by
  intro h
  have hclear := h (initial.begin (some System.nameA) false []).1 oneKey failedRemoval
  exact absurd (hclear.emptied (by decide)).1 (by decide)

end Preferences

end Bl616cl.Prefs
