import Bl616cl.Prefs.Puts

/-!
# Puts that fail

What a put that fails half way leaves behind, and what its return value says about it. A put is
honest if a non-zero count means that the value can be read back and a zero that nothing has
changed; `honest_iff` says exactly when it is.
-/

namespace Bl616cl.Prefs

open Preferences

/-- The two stores have the same files with the same contents. -/
def Same (store store' : Store) : Prop := ∀ path, store'.lookup path = store.lookup path

namespace Preferences

/-- The get of the value's type returns it. -/
def Returns (p : Preferences) (store : Store) (key : Option CStr) : Value → Prop
  | .scalar K v => ∀ d, p.getScalar store K key d = v
  | .str s => ∀ d, p.getString store key d = s.chars
  | .blob bytes => p.getBytesLength store key = bytes.length ∧
      ∀ maxLen, bytes.length ≤ maxLen → p.getBytes store key maxLen = bytes

/-- A non-zero count says that the value is there, zero that the store is as before. -/
def Honest (p : Preferences) (store : Store) (key : Option CStr) (arg : PutArg) (heap : Heap)
    (lfs : LfsOutcome) : Prop :=
  ((p.put store key arg heap lfs).2 ≠ 0 →
    ∀ v, arg.value = some v → p.Returns (p.put store key arg heap lfs).1 key v) ∧
  ((p.put store key arg heap lfs).2 = 0 → Same store (p.put store key arg heap lfs).1)

/-- When a put that gets to the file `path` is honest. -/
structure Sound (p : Preferences) (store : Store) (k : CStr) (v : Value) (heap : Heap)
    (lfs : LfsOutcome) (path : List UInt8) : Prop where
  /-- A failed open has not left a new file. -/
  opened : lfs.openOk = false → lfs.created = true → (store.lookup path).isSome
  /-- A failed write was to a file that was there before. -/
  written : lfs.openOk = true → lfs.writeOk = false → (store.lookup path).isSome
  /-- After a failed truncation the close commits nothing new. -/
  truncated : lfs.openOk = true → lfs.writeOk = true → lfs.truncateOk = false →
    ∃ old, store.lookup path = some old ∧ (lfs.closeOk = true → v.toBlob <+: old)
  /-- An empty value was stored already: its count is zero. -/
  empty : lfs.openOk = true → lfs.writeOk = true → lfs.truncateOk = true → v.payload = [] →
    ∃ old, store.lookup path = some old ∧ (lfs.closeOk = true → old = v.toBlob)
  /-- Any other value goes under the whole key and is committed, or was stored already. -/
  stored : lfs.openOk = true → lfs.writeOk = true → lfs.truncateOk = true → v.payload ≠ [] →
    (built p.ns.text k heap = joined p.ns.text k ∧ lfs.closeOk = true) ∨
      p.Returns store (some k) v

end Preferences

/-! ## The files after an update -/

variable {store store' : Store} {key value path : List UInt8} {o : LfsOutcome}

/-- What an update leaves in the file. -/
def LfsOutcome.leaves (o : LfsOutcome) (old : Option (List UInt8)) (value : List UInt8) :
    Option (List UInt8) :=
  if o.openOk = false then if o.created then some (old.getD []) else old
  else if o.writeOk = false ∨ o.closeOk = false then some (old.getD [])
  else if o.truncateOk then some value else some (value ++ (old.getD []).drop value.length)

def LfsOutcome.reportsOk (o : LfsOutcome) : Bool := o.openOk && o.writeOk && o.truncateOk

theorem lookup_efSetEnvBlob (hne : value ≠ []) (hfit : kvKey2Path key = some path)
    (path' : List UInt8) : (efSetEnvBlob store key value o).1.lookup path' =
      if path' = path then o.leaves (store.lookup path) value else store.lookup path' := by
  have hlen : value.length ≠ 0 := mt List.length_eq_zero_iff.mp hne
  obtain ⟨openOk, created, writeOk, truncateOk, closeOk⟩ := o
  by_cases hp : path' = path
  · subst hp
    cases openOk <;> cases created <;> cases writeOk <;> cases truncateOk <;> cases closeOk <;>
      simp [efSetEnvBlob, hlen, hfit, LfsOutcome.leaves, lookup_openCreate]
  · cases openOk <;> cases created <;> cases writeOk <;> cases truncateOk <;> cases closeOk <;>
      simp [efSetEnvBlob, hlen, hfit, lookup_openCreate, hp, AList.lookup_insert_ne]

theorem efSetEnvBlob_ok (hne : value ≠ []) (hfit : kvKey2Path key = some path) :
    (efSetEnvBlob store key value o).2 = o.reportsOk := by
  have hlen : value.length ≠ 0 := mt List.length_eq_zero_iff.mp hne
  obtain ⟨openOk, created, writeOk, truncateOk, closeOk⟩ := o
  cases openOk <;> cases writeOk <;> cases truncateOk <;>
    simp [efSetEnvBlob, hlen, hfit, LfsOutcome.reportsOk]

theorem leaves_eq_iff (old : Option (List UInt8)) : o.leaves old value = old ↔
    (o.openOk = false → o.created = true → old.isSome) ∧
    (o.openOk = true → o.writeOk = false → old.isSome) ∧
    (o.openOk = true → o.writeOk = true → o.truncateOk = false →
      ∃ x, old = some x ∧ (o.closeOk = true → value <+: x)) ∧
    (o.openOk = true → o.writeOk = true → o.truncateOk = true →
      ∃ x, old = some x ∧ (o.closeOk = true → x = value)) := by
  obtain ⟨openOk, created, writeOk, truncateOk, closeOk⟩ := o
  cases old with
  | none =>
    cases openOk <;> cases created <;> cases writeOk <;> cases truncateOk <;> cases closeOk <;>
      simp [LfsOutcome.leaves]
  | some x =>
    cases openOk <;> cases created <;> cases writeOk <;> cases truncateOk <;> cases closeOk <;>
      simp [LfsOutcome.leaves, List.prefix_iff_eq_append, eq_comm]

theorem same_efSetEnvBlob (hne : value ≠ []) (hfit : kvKey2Path key = some path) :
    Same store (efSetEnvBlob store key value o).1 ↔
      o.leaves (store.lookup path) value = store.lookup path := by
  constructor
  · intro h
    have hat := h path
    rwa [lookup_efSetEnvBlob hne hfit, if_pos rfl] at hat
  · intro h path'
    rw [lookup_efSetEnvBlob hne hfit]
    split
    · next hp => rw [h, hp]
    · rfl

/-! ## What can be seen of a store -/

/-- A blob can be read neither where there is no file nor from an empty one. -/
theorem readBlob_congr (h : ∀ path, store'.lookup path = store.lookup path ∨
    store'.lookup path = some [] ∧ store.lookup path = none) (key : List UInt8) :
    readBlob store' key = readBlob store key := by
  unfold readBlob efGetEnvBlob
  cases hp : kvKey2Path key with
  | none => rfl
  | some path =>
    rcases h path with hsame | ⟨hempty, hnone⟩
    · simp only [hsame]
    · simp [hempty, hnone, valueHeader]

namespace Preferences

variable {p : Preferences} {k : CStr} {v : Value} {heap : Heap} {arg : PutArg}

theorem returns_congr {key : Option CStr} (h : p.blobOf store' key = p.blobOf store key) :
    p.Returns store' key v ↔ p.Returns store key v := by
  cases v <;> simp only [Returns, getScalar, getValue, getString, getBytesLength, getBytes, h]

theorem returns_of_reads {key : Option CStr} (h : p.Reads store key (some v)) :
    p.Returns store key v := by
  cases v with
  | scalar K w =>
    intro d
    rw [h.scalar, Value.asScalar, dif_pos rfl]
  | str s => exact h.string
  | blob bytes =>
    refine ⟨h.bytesLength, fun maxLen hmax => ?_⟩
    rw [h.bytes, Value.asBytes, if_pos hmax]

/-- An unchanged store shows no difference to any get, and no new entries. -/
theorem visible_of_same (h : Same store store') (q : Preferences) (key : Option CStr) :
    q.blobOf store' key = q.blobOf store key ∧ q.freeEntries store' = q.freeEntries store := by
  constructor
  · simp only [blobOf, readBlob_congr fun path => Or.inl (h path)]
  · have hperm : store'.entries.Perm store.entries := by
      refine List.lookup_ext store'.nodupKeys store.nodupKeys fun path content => ?_
      exact Eq.to_iff (congrArg (content ∈ ·) (h path))
    have hkeys : store'.keys.Perm store.keys := hperm.map Sigma.fst
    simp only [freeEntries, ((hkeys.map kvPath2Key).filter (nsMatch q.ns.text)).length_eq,
      efForeachEnv]

/-! ## Honest puts -/

/-- Where the update is of another key, or its close commits nothing, a key reads as before. -/
theorem readBlob_efSetEnvBlob {key' : List UInt8} (hne : value ≠ [])
    (hfit : kvKey2Path key = some path) (hok : o.reportsOk = true)
    (hkey : key' ≠ key ∨ o.closeOk = false) :
    readBlob (efSetEnvBlob store key value o).1 key' = readBlob store key' := by
  rcases hkey with hkey | hclose
  · unfold readBlob efGetEnvBlob
    cases hp : kvKey2Path key' with
    | none => rfl
    | some path' =>
      have hpath : path' ≠ path := fun h => hkey (kvKey2Path_inj hp (h ▸ hfit))
      simp only [lookup_efSetEnvBlob hne hfit, if_neg hpath]
  · apply readBlob_congr
    intro path'
    rw [lookup_efSetEnvBlob hne hfit]
    split
    · next hp =>
      simp only [LfsOutcome.reportsOk, Bool.and_eq_true] at hok
      subst hp
      cases store.lookup path' <;> simp [LfsOutcome.leaves, hok, hclose]
    · exact Or.inl rfl

/-- What an update that is reported leaves at the joined key, read with its type. -/
theorem returns_put (hr : Reaches p k v heap path) (hok : o.reportsOk = true) :
    p.Returns (efSetEnvBlob store (built p.ns.text k heap) v.toBlob o).1 (some k) v ↔
      (built p.ns.text k heap = joined p.ns.text k ∧ o.closeOk = true) ∨
        p.Returns store (some k) v := by
  by_cases hwhole : built p.ns.text k heap = joined p.ns.text k ∧ o.closeOk = true
  · rw [iff_true_intro (Or.inl hwhole), iff_true]
    apply returns_of_reads
    refine reads_of_blob ?_ hr.lengthOk
    rw [blobOf_eq _ hr.named]
    apply readBlob_toBlob
    simp only [LfsOutcome.reportsOk, Bool.and_eq_true] at hok
    rw [efGetEnvBlob, ← hwhole.1, hr.fits]
    simp only [lookup_efSetEnvBlob toBlob_ne_nil hr.fits, if_true]
    simp [LfsOutcome.leaves, hok, hwhole.2]
  · rw [or_iff_right hwhole]
    apply returns_congr
    rw [blobOf_eq _ hr.named, blobOf_eq _ hr.named]
    apply readBlob_efSetEnvBlob toBlob_ne_nil hr.fits hok
    rw [not_and_or, Bool.not_eq_true] at hwhole
    exact hwhole.imp_left Ne.symm

/-- A put that returns 0 is sound if it leaves its file as it was. -/
theorem sound_iff_same (h : o.reportsOk = false ∨ v.payload = []) :
    p.Sound store k v heap o path ↔
      o.leaves (store.lookup path) v.toBlob = store.lookup path := by
  rw [leaves_eq_iff]
  constructor
  · intro hs
    refine ⟨hs.opened, hs.written, hs.truncated, fun h1 h2 h3 => ?_⟩
    refine hs.empty h1 h2 h3 (h.resolve_left ?_)
    simp [LfsOutcome.reportsOk, h1, h2, h3]
  · rintro ⟨hopen, hwrite, htrunc, hempty⟩
    refine ⟨hopen, hwrite, htrunc, fun h1 h2 h3 _ => hempty h1 h2 h3, fun h1 h2 h3 hne => ?_⟩
    refine absurd (h.resolve_left ?_) hne
    simp [LfsOutcome.reportsOk, h1, h2, h3]

/-- One that returns a count is sound if the value is there. -/
theorem sound_iff_stored (hok : o.reportsOk = true) (hne : v.payload ≠ []) :
    p.Sound store k v heap o path ↔
      (built p.ns.text k heap = joined p.ns.text k ∧ o.closeOk = true) ∨
        p.Returns store (some k) v := by
  simp only [LfsOutcome.reportsOk, Bool.and_eq_true] at hok
  obtain ⟨⟨hopen, hwrite⟩, htrunc⟩ := hok
  constructor
  · exact fun hs => hs.stored hopen hwrite htrunc hne
  · refine fun h => ⟨?_, ?_, ?_, fun _ _ _ he => absurd he hne, fun _ _ _ _ => h⟩
    · simp [hopen]
    · simp [hwrite]
    · simp [htrunc]

theorem honest_reached (harg : arg.value = some v) (hr : Reaches p k v heap path) :
    p.Honest store (some k) arg heap o ↔ p.Sound store k v heap o path := by
  rw [Honest, put_reached harg hr]
  simp only [efSetEnvBlob_ok toBlob_ne_nil hr.fits]
  have hsame : Same store (efSetEnvBlob store (built p.ns.text k heap) v.toBlob o).1 ↔
      o.leaves (store.lookup path) v.toBlob = store.lookup path :=
    same_efSetEnvBlob toBlob_ne_nil hr.fits
  by_cases hzero : o.reportsOk = false ∨ v.payload = []
  · have hret : (if o.reportsOk = true then v.payload.length else 0) = 0 := by
      rcases hzero with h | h <;> simp [h]
    rw [sound_iff_same hzero, ← hsame, hret]
    simp
  · rw [not_or, Bool.not_eq_false] at hzero
    have hret : v.payload.length ≠ 0 := mt List.length_eq_zero_iff.mp hzero.2
    rw [sound_iff_stored hzero.1 hzero.2, ← returns_put hr hzero.1]
    simp [hzero.1, hret, harg]

theorem honest_of_unchanged {key : Option CStr}
    (h : p.put store key arg heap o = (store, 0)) : p.Honest store key arg heap o := by
  rw [Honest, h]
  exact ⟨fun hne => absurd rfl hne, fun _ _ => rfl⟩

/-- **Puts**: a put is honest exactly if it does not get to the file, or is sound there. -/
theorem honest_iff (p : Preferences) (store : Store) (key : Option CStr) (arg : PutArg)
    (heap : Heap) (lfs : LfsOutcome) : p.Honest store key arg heap lfs ↔
      ∀ k v path, key = some k → arg.value = some v → Reaches p k v heap path →
        p.Sound store k v heap lfs path := by
  constructor
  · rintro h k v path rfl harg hr
    exact (honest_reached harg hr).mp h
  · intro h
    cases key with
    | none => exact honest_of_unchanged put_nullKey
    | some k =>
      cases harg : arg.value with
      | none => exact honest_of_unchanged (put_null harg)
      | some v =>
        by_cases hr : ∃ path, Reaches p k v heap path
        · obtain ⟨path, hr⟩ := hr
          exact (honest_reached harg hr).mpr (h k v path rfl harg hr)
        · exact honest_of_unchanged (put_refused harg (not_exists.mp hr))

/-- Where only the allocation for the key's last part fails, the value goes to another key. -/
theorem shortened_key_lost : ¬ ∀ (p : Preferences) (store : Store) (key : Option CStr)
    (arg : PutArg) (heap : Heap) (lfs : LfsOutcome), p.Honest store key arg heap lfs := by
  intro h
  have hget := (h ⟨⟨[0x61], 1, true⟩, false⟩ ∅ (some ⟨[0x62], by decide⟩) (.scalar .uChar 7#8)
    [true, true, true, false] .allOk).1 (by decide) _ rfl
  exact absurd (congrArg BitVec.toNat (hget 0)) (by decide)

end Preferences

end Bl616cl.Prefs
