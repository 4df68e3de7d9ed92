import Bl616cl.Prefs.Atomic
import Bl616cl.Prefs.Clear

/-!
# Objects opened read-only

`putValue` consults `_read_only`, so no typed put of a read-only object gets to EasyFlash. `remove`
and `clear` do not, and delete what is stored. `keeps_iff` says which calls an object opened
read-only can be given without the store changing, whatever fails below them: a `remove` whose
`String` runs out of memory may be of another key than was asked for.
-/

namespace Bl616cl.Prefs

open Bl616cl.Lib Preferences

namespace Preferences

/-- `remove`, with the outcomes of its allocations and of `lfs_remove`. -/
def removeWith (p : Preferences) (store : Store) (key : Option CStr) (heap : Heap)
    (removeOk : Bool) : Store × Bool :=
  if p.ns.length = 0 ∨ key = none then (store, false)
  else
    let k := (p.makeKey key heap).1
    if k.length = 0 then (store, false) else efDelEnvWith removeOk store k.text

end Preferences

/-- A call on an object between two calls of `begin`. -/
inductive Call where
  | put (key : Option CStr) (arg : PutArg) (heap : Heap) (lfs : LfsOutcome)
  /-- Any typed get, `getBytesLength` or `getType`. -/
  | get (key : Option CStr)
  | remove (key : Option CStr) (heap : Heap) (removeOk : Bool)
  | clear (faults : ClearFaults)
  | freeEntries
  | end_

/-- An object and the store it is used on. -/
structure Opened where
  obj : Preferences
  store : Store

namespace Opened

variable (s : Opened)

def step : Call → Opened
  | .put key arg heap lfs => { s with store := (s.obj.put s.store key arg heap lfs).1 }
  | .get _ => s
  | .remove key heap removeOk =>
    { s with store := (s.obj.removeWith s.store key heap removeOk).1 }
  | .clear f => { s with store := (s.obj.clearWith s.store f).1 }
  | .freeEntries => s
  | .end_ => { s with obj := s.obj.end_ }

end Opened

/-- The walk of a `clear` copies the key of the file at this place of the directory: every read up
to it succeeds, and every allocation for it and the namespace's files before it. -/
structure Copied (ns : List UInt8) (f : ClearFaults) (store : Store) (pos : Nat)
    (name : List UInt8) : Prop where
  opened : f.dirOpenOk = true
  place : (listing store)[pos]? = some name
  own : own ns name = true
  read : ∀ t ≤ pos, f.readOk t = true
  allocated : ∀ t < allocsFor 0 0 (((listing store).take pos).countP (Preferences.own ns) + 1),
    f.heap.ok t = true

namespace Opened

/-- Nothing stored is deleted: neither the key that a `remove` puts together, nor one that a `clear`
copies. -/
def Harmless (s : Opened) : Call → Prop
  | .remove key heap removeOk => s.obj.ns.text ≠ [] → removeOk = true → ∀ k, key = some k →
      built s.obj.ns.text k heap ≠ [] → efGetEnvBlob s.store (built s.obj.ns.text k heap) = none
  | .clear f => s.obj.ns.text ≠ [] → ∀ pos name, Copied s.obj.ns.text f s.store pos name →
      f.removeOk (((listing s.store).take pos).countP (own s.obj.ns.text)) = true →
      efGetEnvBlob s.store (dupKey (kvPath2Key name)) = none
  | _ => True

end Opened

/-! ## Stores that stay the same -/

variable {store store' store'' : Store} {key : List UInt8}

theorem Same.symm (h : Same store store') : Same store' store := fun path => (h path).symm

theorem Same.trans (h : Same store store') (h' : Same store' store'') : Same store store'' :=
  fun path => (h' path).trans (h path)

theorem same_efDelEnvWith {removeOk : Bool} : Same store (efDelEnvWith removeOk store key).1 ↔
    (removeOk = true → efGetEnvBlob store key = none) := by
  unfold efGetEnvBlob
  constructor
  · rintro h rfl
    cases hp : kvKey2Path key with
    | none => rfl
    | some path =>
      show store.lookup path = none
      rw [← h path, lookup_del, if_pos ⟨rfl, hp⟩]
  · intro h path
    rw [lookup_del]
    split
    · next hdel =>
      have hnone := h hdel.1
      simp only [hdel.2] at hnone
      exact hnone.symm
    · rfl

theorem same_deleteAll {removeOk : Nat → Bool} {keys : List (List UInt8)} :
    Same store (deleteAll removeOk 0 keys store) ↔ ∀ j key, keys[j]? = some key →
      removeOk j = true → efGetEnvBlob store key = none := by
  constructor
  · intro h j key hkey hok
    unfold efGetEnvBlob
    cases hp : kvKey2Path key with
    | none => rfl
    | some path =>
      have hhit : Hit removeOk 0 keys path := ⟨j, key, hkey, by rwa [Nat.zero_add], hp⟩
      show store.lookup path = none
      rw [← h path, lookup_deleteAll_of_hit hhit]
  · intro h path
    by_cases hhit : Hit removeOk 0 keys path
    · obtain ⟨j, key, hkey, hok, hp⟩ := id hhit
      have hnone := h j key hkey (by rwa [Nat.zero_add] at hok)
      simp only [efGetEnvBlob, hp] at hnone
      rw [lookup_deleteAll_of_hit hhit, hnone]
    · exact lookup_deleteAll hhit

/-! ## What a walk copies -/

/-- A walk from read `i` on gets to a file of the namespace that has `j` of them before it, and
copies this key. -/
def Finds (ns : List UInt8) (readOk : Nat → Bool) (i : Nat) (names : List (List UInt8))
    (ctx : NsScanCtx) (j : Nat) (key : List UInt8) : Prop :=
  ∃ pos name, names[pos]? = some name ∧ own ns name = true ∧
    (names.take pos).countP (own ns) = j ∧ (∀ t ≤ pos, readOk (i + t) = true) ∧
    (∀ t < allocsFor ctx.cap ctx.keys.length (j + 1), ctx.heap.ok t = true) ∧
    key = dupKey (kvPath2Key name)

section

variable {ns first : List UInt8} {readOk : Nat → Bool} {i j : Nat} {names : List (List UInt8)}
  {ctx ctx' : NsScanCtx}

theorem reads_succ (readOk : Nat → Bool) (i pos : Nat) :
    (∀ t ≤ pos + 1, readOk (i + t) = true) ↔
      readOk i = true ∧ ∀ t ≤ pos, readOk (i + 1 + t) = true := by
  constructor
  · refine fun h => ⟨h 0 (Nat.zero_le _), fun t ht => ?_⟩
    rw [Nat.add_assoc, Nat.add_comm 1]
    exact h (t + 1) (by omega)
  · rintro ⟨h0, h⟩ (_ | t) ht
    · exact h0
    · have hread := h t (by omega)
      rwa [Nat.add_assoc, Nat.add_comm 1] at hread

theorem not_finds_unread (hread : readOk i = false) :
    ¬Finds ns readOk i (first :: names) ctx j key := by
  rintro ⟨pos, name, -, -, -, hreads, -⟩
  have h0 := hreads 0 (Nat.zero_le pos)
  rw [Nat.add_zero, hread] at h0
  cases h0

theorem not_finds_failed (hneed : ¬∀ t < ctx.need, ctx.heap.ok t = true) :
    ¬Finds ns readOk i (first :: names) ctx j key := by
  rintro ⟨pos, name, -, -, -, -, halloc, -⟩
  rw [allocsFor_succ, forall_lt_add] at halloc
  exact hneed halloc.1

theorem finds_pass (hread : readOk i = true) (hown : own ns first = false) :
    Finds ns readOk i (first :: names) ctx j key ↔ Finds ns readOk (i + 1) names ctx j key := by
  constructor
  · rintro ⟨pos, name, hpos, hn, hcount, hreads, hrest⟩
    cases pos with
    | zero =>
      obtain rfl := Option.some.inj hpos
      rw [hown] at hn
      cases hn
    | succ pos =>
      exact ⟨pos, name, hpos, hn, by simpa [hown] using hcount,
        ((reads_succ readOk i pos).mp hreads).2, hrest⟩
  · rintro ⟨pos, name, hpos, hn, hcount, hreads, hrest⟩
    exact ⟨pos + 1, name, hpos, hn, by simp [hown, hcount],
      (reads_succ readOk i pos).mpr ⟨hread, hreads⟩, hrest⟩

theorem finds_zero (hread : readOk i = true) (hown : own ns first = true)
    (hneed : ∀ t < ctx.need, ctx.heap.ok t = true) :
    Finds ns readOk i (first :: names) ctx 0 key ↔ key = dupKey (kvPath2Key first) := by
  constructor
  · rintro ⟨pos, name, hpos, -, hcount, -, -, rfl⟩
    cases pos with
    | zero =>
      obtain rfl := Option.some.inj hpos
      rfl
    | succ pos => simp [hown] at hcount
  · rintro rfl
    refine ⟨0, first, rfl, hown, rfl, fun t ht => ?_, ?_, rfl⟩
    · rw [Nat.le_zero.mp ht]
      exact hread
    · rw [allocsFor_succ, forall_lt_add]
      exact ⟨hneed, fun t ht => absurd ht (Nat.not_lt_zero t)⟩

theorem finds_succ (hread : readOk i = true) (hown : own ns first = true)
    (hneed : ∀ t < ctx.need, ctx.heap.ok t = true)
    (hlen : ctx'.keys.length = ctx.keys.length + 1)
    (hcap : ctx'.cap = if ctx.keys.length = ctx.cap then newCap ctx.cap else ctx.cap)
    (hheap : ∀ t, ctx'.heap.ok t = ctx.heap.ok (ctx.need + t)) :
    Finds ns readOk i (first :: names) ctx (j + 1) key ↔
      Finds ns readOk (i + 1) names ctx' j key := by
  unfold Finds
  rw [allocsFor_succ, forall_lt_add, hlen, hcap]
  simp only [hheap]
  constructor
  · rintro ⟨pos, name, hpos, hn, hcount, hreads, ⟨-, halloc⟩, rfl⟩
    cases pos with
    | zero => simp at hcount
    | succ pos =>
      refine ⟨pos, name, hpos, hn, ?_, ((reads_succ readOk i pos).mp hreads).2, halloc, rfl⟩
      simpa [hown] using hcount
  · rintro ⟨pos, name, hpos, hn, hcount, hreads, halloc, rfl⟩
    refine ⟨pos + 1, name, hpos, hn, ?_, (reads_succ readOk i pos).mpr ⟨hread, hreads⟩,
      ⟨hneed, halloc⟩, rfl⟩
    simpa [hown] using hcount

end

theorem scan_getElem? (ns : List UInt8) (readOk : Nat → Bool) (i : Nat)
    (names : List (List UInt8)) (ctx : NsScanCtx) (j : Nat) (key : List UInt8) :
    (scan (collectCb ns) readOk i names ctx).1.keys[ctx.keys.length + j]? = some key ↔
      Finds ns readOk i names ctx j key := by
  have hnone : ctx.keys[ctx.keys.length + j]? ≠ some key := by
    rw [List.getElem?_eq_none (Nat.le_add_right _ _)]
    exact (Option.some_ne_none key).symm
  induction names generalizing i ctx j with
  | nil => exact iff_of_false hnone (by rintro ⟨pos, name, hpos, -⟩; cases hpos)
  | cons first names ih =>
    by_cases hread : readOk i = true
    · by_cases hown : own ns first = true
      · by_cases hneed : ∀ t < ctx.need, ctx.heap.ok t = true
        · obtain ⟨ctx', hcb, hkeys, hcap, hheap⟩ := collectCb_done hown hneed
          have hlen : ctx'.keys.length = ctx.keys.length + 1 := by simp [hkeys]
          rw [scan_own hread hown, hcb, if_pos rfl]
          cases j with
          | zero =>
            obtain ⟨c, -, hscan, -⟩ := scan_collects ns readOk (i + 1) names ctx'
            rw [finds_zero hread hown hneed, hscan, hkeys]
            simp [eq_comm]
          | succ j =>
            rw [finds_succ hread hown hneed hlen hcap hheap, ← Nat.add_assoc,
              Nat.add_right_comm, ← hlen]
            refine ih (i + 1) ctx' j ?_
            rw [List.getElem?_eq_none (Nat.le_add_right _ _)]
            exact (Option.some_ne_none key).symm
        · obtain ⟨hkeys, hfail⟩ := collectCb_failed hown hneed
          rw [scan_own hread hown, hfail, if_neg (by decide), hkeys]
          exact iff_of_false hnone (not_finds_failed hneed)
      · rw [Bool.not_eq_true] at hown
        rw [scan_pass hread hown, finds_pass hread hown]
        exact ih (i + 1) ctx j hnone
    · rw [Bool.not_eq_true] at hread
      have hscan : scan (collectCb ns) readOk i (first :: names) ctx = (ctx, true) := by
        simp [scan, hread]
      rw [hscan]
      exact iff_of_false hnone (not_finds_unread hread)

namespace Preferences

variable {p : Preferences}

theorem collected_getElem? (p : Preferences) (store : Store) (f : ClearFaults) (j : Nat)
    (key : List UInt8) : (p.collected store f)[j]? = some key ↔
      ∃ pos name, Copied p.ns.text f store pos name ∧
        ((listing store).take pos).countP (own p.ns.text) = j ∧
        key = dupKey (kvPath2Key name) := by
  by_cases hopen : f.dirOpenOk = true
  · have hscan := scan_getElem? p.ns.text f.readOk 0 (listing store) ⟨[], 0, f.heap⟩ j key
    simp only [Finds, List.length_nil, Nat.zero_add] at hscan
    rw [collected, efForeachEnvWith, if_neg (by simp [hopen]), hscan]
    constructor
    · rintro ⟨pos, name, hpos, hown, rfl, hread, halloc, rfl⟩
      exact ⟨pos, name, ⟨hopen, hpos, hown, hread, halloc⟩, rfl, rfl⟩
    · rintro ⟨pos, name, ⟨-, hpos, hown, hread, halloc⟩, rfl, rfl⟩
      exact ⟨pos, name, hpos, hown, rfl, hread, halloc, rfl⟩
  · have hnil : p.collected store f = [] := by simp [collected, efForeachEnvWith, hopen]
    rw [hnil]
    refine iff_of_false (by simp) ?_
    rintro ⟨pos, name, hcopied, -⟩
    exact hopen hcopied.opened

/-- The guard: no put of a read-only object changes anything. -/
theorem put_readOnly (hro : p.readOnly = true) (key : Option CStr) (arg : PutArg) (heap : Heap)
    (lfs : LfsOutcome) : p.put store key arg heap lfs = (store, 0) := by
  cases harg : arg.value with
  | none => exact put_null harg
  | some v => rw [put_eq harg, putValue, if_pos (Or.inl hro)]

theorem removeWith_clean (p : Preferences) (store : Store) (key : Option CStr) :
    p.removeWith store key [] true = p.remove store key := by
  unfold removeWith remove efDelEnvWith efDelEnv
  rfl

theorem same_removeWith (p : Preferences) (store : Store) (key : Option CStr) (heap : Heap)
    (removeOk : Bool) : Same store (p.removeWith store key heap removeOk).1 ↔
      Opened.Harmless ⟨p, store⟩ (.remove key heap removeOk) := by
  by_cases hns : p.ns.text = []
  · have hstore : (p.removeWith store key heap removeOk).1 = store := by
      simp [removeWith, WString.length, hns]
    rw [hstore]
    exact ⟨fun _ hne => absurd hns hne, fun _ _ => rfl⟩
  · cases key with
    | none =>
      have hstore : (p.removeWith store none heap removeOk).1 = store := by simp [removeWith]
      rw [hstore]
      exact ⟨fun _ _ _ k hk => (by cases hk), fun _ _ => rfl⟩
    | some k =>
      have hbuilt : (p.makeKey (some k) heap).1.text = built p.ns.text k heap := makeKey_built hns
      have hstore : (p.removeWith store (some k) heap removeOk).1 =
          if built p.ns.text k heap = [] then store
          else (efDelEnvWith removeOk store (built p.ns.text k heap)).1 := by
        rw [removeWith, if_neg (by simp [length_ns hns])]
        simp only [WString.length, hbuilt, List.length_eq_zero_iff]
        split <;> rfl
      rw [hstore]
      by_cases hempty : built p.ns.text k heap = []
      · rw [if_pos hempty]
        refine ⟨fun _ _ _ k' hk hne => ?_, fun _ _ => rfl⟩
        obtain rfl := Option.some.inj hk
        exact absurd hempty hne
      · rw [if_neg hempty, same_efDelEnvWith]
        constructor
        · rintro h - hok k' ⟨⟩ -
          exact h hok
        · exact fun h hok => h hns hok k rfl hempty

theorem same_clearWith (p : Preferences) (store : Store) (f : ClearFaults) :
    Same store (p.clearWith store f).1 ↔ Opened.Harmless ⟨p, store⟩ (.clear f) := by
  by_cases hns : p.ns.text = []
  · rw [clearWith_unnamed hns]
    exact ⟨fun _ hne => absurd hns hne, fun _ _ => rfl⟩
  · rw [clearWith_named hns, same_deleteAll]
    constructor
    · intro h _ pos name hcopied hok
      exact h _ _ ((collected_getElem? p store f _ _).mpr ⟨pos, name, hcopied, rfl, rfl⟩) hok
    · intro h j key hkey hok
      obtain ⟨pos, name, hcopied, rfl, rfl⟩ := (collected_getElem? p store f j key).mp hkey
      exact h hns pos name hcopied hok

end Preferences

/-! ## Runs -/

namespace Opened

/-- What a run keeps until its first harmful call. -/
structure Unchanged (store : Store) (s : Opened) : Prop where
  readOnly : s.obj.readOnly = true
  same : Same store s.store

variable {s : Opened}

/-- A call of a read-only object changes the store exactly if it is harmful. -/
theorem same_step (hro : s.obj.readOnly = true) (c : Call) :
    Same s.store (s.step c).store ↔ s.Harmless c := by
  cases c with
  | put key arg heap lfs =>
    rw [step, put_readOnly hro]
    exact ⟨fun _ => trivial, fun _ _ => rfl⟩
  | remove key heap removeOk => exact same_removeWith s.obj s.store key heap removeOk
  | clear f => exact same_clearWith s.obj s.store f
  | get _ => exact ⟨fun _ => trivial, fun _ _ => rfl⟩
  | freeEntries => exact ⟨fun _ => trivial, fun _ _ => rfl⟩
  | end_ => exact ⟨fun _ => trivial, fun _ _ => rfl⟩

theorem unchanged_step (h : s.Unchanged store) {c : Call} (hc : s.Harmless c) :
    (s.step c).Unchanged store := by
  refine ⟨?_, h.same.trans ((same_step h.readOnly c).mpr hc)⟩
  cases c <;> exact h.readOnly

theorem readOnly_begin {q : Preferences} {name : Option CStr} {readOnly : Bool} {heap : Heap}
    (h : (q.begin name readOnly heap).2 = true) :
    (q.begin name readOnly heap).1.readOnly = readOnly := by
  cases name with
  | none => cases h
  | some c =>
    rw [Preferences.begin] at h ⊢
    split
    · next hbad =>
      rw [if_pos hbad] at h
      cases h
    · rfl

/-- **Read-only objects**: from a successful `begin(name, true)` on, the store stays as it was
exactly if no `remove` puts together a stored key and takes its file away, and no `clear` copies
one and does. -/
theorem keeps_iff (q : Preferences) (store : Store) (name : Option CStr) (heap : Heap)
    (hbegin : (q.begin name true heap).2 = true) (calls : List Call) :
    Along step (fun s => Same store s.store) ⟨(q.begin name true heap).1, store⟩ calls ↔
      Meets step Harmless ⟨(q.begin name true heap).1, store⟩ calls := by
  have h0 : Unchanged store ⟨(q.begin name true heap).1, store⟩ :=
    ⟨readOnly_begin hbegin, fun _ => rfl⟩
  refine along_iff_meets (I := Unchanged store) (V := fun _ _ => True)
    (fun s c h _ hc => unchanged_step h hc) (fun s h => h.same) (fun s c h _ hc hsame => hc ?_) h0
    (meets_of_forall (fun _ _ => trivial) _ calls)
  exact (same_step h.readOnly c).mp (h.same.symm.trans hsame)

/-- The key `a/b` holds a byte. -/
def stored : Store := (efSetEnvBlob ∅ [0x61, 0x2F, 0x62] (makeBlob .u8 [7]) .allOk).1

/-- A put, a `remove` of `c` of which only `a/` is put together, a `clear` that cannot take the file
away, and a `clear` behind `end`. -/
theorem keeps_missing : Along step (fun s => Same stored s.store)
    ⟨(Preferences.initial.begin (some ⟨[0x61], by decide⟩) true []).1, stored⟩
    [.put (some ⟨[0x62], by decide⟩) (.scalar .uChar 8#8) [] .allOk,
      .remove (some ⟨[0x63], by decide⟩) [true, true, true, false] true, .clear failedRemoval,
      .end_, .clear .clean] :=
  (keeps_iff Preferences.initial stored (some ⟨[0x61], by decide⟩) [] (by decide) _).mpr
    ⟨trivial, by rintro - - k ⟨⟩ -; decide, fun _ _ _ _ hok => (by cases hok), trivial,
      fun h => absurd rfl h, trivial⟩

/-- A `remove` on an object opened read-only deletes the key. -/
theorem remove_not_guarded : ¬ ∀ (q : Preferences) (store : Store) (name : Option CStr)
    (heap : Heap), (q.begin name true heap).2 = true → ∀ calls,
      Along step (fun s => Same store s.store) ⟨(q.begin name true heap).1, store⟩ calls := by
  intro h
  have hrun := h Preferences.initial stored (some ⟨[0x61], by decide⟩) [] (by decide)
    [.remove (some ⟨[0x62], by decide⟩) [] true]
  exact absurd (hrun.last [0x61, 0x7D, 0x0F, 0x62]) (by decide)

end Opened

end Bl616cl.Prefs
