import Mathlib.Data.List.AList
import Mathlib.Tactic.Common

/-!
# EasyFlash on LittleFS

`lfs_easyflash.c` keeps every key as a file of one directory. The file's name is the key with
`}` and `/` escaped (`kvKey2Path`), which `kvPath2Key` undoes.

LittleFS commits a file's new contents when the file is closed; `LfsOutcome` says which calls of
one update fail. A new file is committed, empty, by the open; a failed write marks the file so that
its close commits nothing; after a failed truncation the close commits what was written, with the
tail of longer old contents behind it.
-/

namespace Bl616cl.Prefs

/-- The files of the namespace directory. -/
abbrev Store := AList fun _ : List UInt8 => List UInt8

/-- `EF_ENV_NAME_MAX`. -/
def efEnvNameMax : Nat := 64

/-- The length of `LFS_EF_NAMESPACE` and a slash. -/
def prefixSize : Nat := 11

/-! ## File names -/

def escape : List UInt8 → List UInt8
  | [] => []
  | c :: cs => if c = 0x7D ∨ c = 0x2F then 0x7D :: (c ^^^ 0x20) :: escape cs else c :: escape cs

def unescape : List UInt8 → List UInt8
  | [] => []
  | [c] => if c = 0x7D then [0x20] else [c]
  | c :: d :: cs => if c = 0x7D then (d ^^^ 0x20) :: unescape cs else c :: unescape (d :: cs)

/-- `kv_key2path`: the name of a key's file, or `none` where the path does not fit. -/
def kvKey2Path (key : List UInt8) : Option (List UInt8) :=
  if prefixSize + (escape key).length > efEnvNameMax - 1 then none else some (escape key)

/-- `kv_path2key` into a zeroed buffer. -/
def kvPath2Key (name : List UInt8) : List UInt8 :=
  if (unescape name).length > efEnvNameMax - 1 then [] else unescape name

theorem unescape_escape (key : List UInt8) : unescape (escape key) = key := by
  induction key with
  | nil => rfl
  | cons c cs ih =>
    rw [escape]
    split
    · next hesc =>
      have hback : c ^^^ 0x20 ^^^ 0x20 = c := by
        rcases hesc with rfl | rfl <;> decide
      rw [unescape, if_pos rfl, hback, ih]
    · next hplain =>
      have hc : c ≠ 0x7D := fun h => hplain (Or.inl h)
      cases he : escape cs with
      | nil =>
        rw [he] at ih
        rw [unescape, if_neg hc, ← ih]
        rfl
      | cons d ds => rw [unescape, if_neg hc, ← he, ih]

theorem length_le_escape (key : List UInt8) : key.length ≤ (escape key).length := by
  induction key with
  | nil => exact Nat.le_refl 0
  | cons c cs ih =>
    rw [escape]
    split <;> simp only [List.length_cons] <;> omega

variable {key key' path : List UInt8}

/-- Two keys have one file only if they are equal. -/
theorem kvPath2Key_kvKey2Path (h : kvKey2Path key = some path) : kvPath2Key path = key := by
  unfold kvKey2Path at h
  split at h
  · cases h
  · next hfit =>
    have hlen := length_le_escape key
    obtain rfl := Option.some.inj h
    rw [kvPath2Key, unescape_escape, if_neg (by omega)]

theorem kvKey2Path_inj (h : kvKey2Path key = some path) (h' : kvKey2Path key' = some path) :
    key = key' := by
  rw [← kvPath2Key_kvKey2Path h, kvPath2Key_kvKey2Path h']

/-! ## Operations -/

/-- `ef_get_env_blob` of the whole value; `none` where there is no such file. -/
def efGetEnvBlob (store : Store) (key : List UInt8) : Option (List UInt8) :=
  match kvKey2Path key with
  | none => none
  | some path => store.lookup path

/-- What the LittleFS calls of one `ef_set_env_blob` do. -/
structure LfsOutcome where
  openOk : Bool
  /-- An open that fails may have committed the new file before it did. -/
  created : Bool
  writeOk : Bool
  truncateOk : Bool
  /-- The close commits the file; its return value is not looked at. -/
  closeOk : Bool
  deriving DecidableEq, Repr

def LfsOutcome.allOk : LfsOutcome := ⟨true, true, true, true, true⟩

/-- The directory once `lfs_file_open` with `LFS_O_CREAT` has made sure of the file. -/
def openCreate (store : Store) (path : List UInt8) : Store :=
  if (store.lookup path).isSome then store else store.insert path []

/-- `ef_set_env_blob`; whether it returns `EF_NO_ERR`. -/
def efSetEnvBlob (store : Store) (key value : List UInt8) (o : LfsOutcome) : Store × Bool :=
  if value.length = 0 then (store, false)
  else match kvKey2Path key with
    | none => (store, false)
    | some path =>
      let opened := openCreate store path
      let written := value ++ ((store.lookup path).getD []).drop value.length
      if !o.openOk then (if o.created then opened else store, false)
      else if !o.writeOk then (opened, false)
      else if !o.truncateOk then (if o.closeOk then opened.insert path written else opened, false)
      else (if o.closeOk then opened.insert path value else opened, true)

/-- `ef_del_env`; the result of `lfs_remove` is not looked at. -/
def efDelEnv (store : Store) (key : List UInt8) : Store × Bool :=
  match kvKey2Path key with
  | none => (store, false)
  | some path => (store.erase path, true)

/-- The keys that `ef_foreach_env` calls back with. -/
def efForeachEnv (store : Store) : List (List UInt8) := store.keys.map kvPath2Key

/-! ## As a map of keys -/

variable {store : Store}

theorem lookup_openCreate (path path' : List UInt8) : (openCreate store path).lookup path' =
    if path' = path then some ((store.lookup path).getD []) else store.lookup path' := by
  unfold openCreate
  by_cases hp : path' = path
  · subst hp
    cases hl : store.lookup path' with
    | none => simp
    | some old => simp [hl]
  · split <;> simp [hp, AList.lookup_insert_ne]

/-- An update without failures: the key's value is the new one, the others are as before. -/
theorem efGetEnvBlob_set (store : Store) (hfit : kvKey2Path key = some path) {value : List UInt8}
    (hne : value ≠ []) (key' : List UInt8) :
    efGetEnvBlob (efSetEnvBlob store key value .allOk).1 key' =
      if key' = key then some value else efGetEnvBlob store key' := by
  have hlen : value.length ≠ 0 := mt List.length_eq_zero_iff.mp hne
  simp only [efSetEnvBlob, if_neg hlen, hfit, LfsOutcome.allOk]
  by_cases hk : key' = key
  · subst hk
    simp [efGetEnvBlob, hfit]
  · rw [if_neg hk]
    unfold efGetEnvBlob
    cases hp : kvKey2Path key' with
    | none => rfl
    | some path' =>
      have hpath : path' ≠ path := fun h => hk (kvKey2Path_inj hp (h ▸ hfit))
      simp [AList.lookup_insert_ne hpath, lookup_openCreate, hpath]

theorem efGetEnvBlob_del (key key' : List UInt8) : efGetEnvBlob (efDelEnv store key).1 key' =
    if key' = key then none else efGetEnvBlob store key' := by
  unfold efDelEnv efGetEnvBlob
  by_cases hk : key' = key
  · subst hk
    cases hp : kvKey2Path key' <;> simp
  · rw [if_neg hk]
    cases hp : kvKey2Path key with
    | none => rfl
    | some path =>
      cases hp' : kvKey2Path key' with
      | none => rfl
      | some path' =>
        have hpath : path' ≠ path := fun h => hk (kvKey2Path_inj hp' (h ▸ hp))
        simp [AList.lookup_erase_ne hpath]

theorem mem_efForeachEnv (h : efGetEnvBlob store key ≠ none) : key ∈ efForeachEnv store := by
  unfold efGetEnvBlob at h
  cases hp : kvKey2Path key with
  | none => simp [hp] at h
  | some path =>
    simp only [hp] at h
    have hmem : path ∈ store.keys := by
      rw [← AList.mem_keys, ← AList.lookup_isSome]
      exact Option.isSome_iff_ne_none.mpr h
    exact List.mem_map.mpr ⟨path, hmem, kvPath2Key_kvKey2Path hp⟩

theorem efGetEnvBlob_delAll (keys : List (List UInt8)) (key : List UInt8) :
    efGetEnvBlob (keys.foldl (fun st k => (efDelEnv st k).1) store) key =
      if key ∈ keys then none else efGetEnvBlob store key := by
  induction keys generalizing store with
  | nil => simp
  | cons k ks ih =>
    rw [List.foldl_cons, ih, efGetEnvBlob_del]
    by_cases hk : key = k
    · simp [hk]
    · simp [hk]

end Bl616cl.Prefs
