import Bl616cl.Prefs.Gets

/-!
# What a put does

Up to `ef_set_env_blob` a put either gives up with the store untouched or arrives there with the
key its String operations have built (`built`), which is the joined key only if none of their
allocations fails. From there on the outcomes of the LittleFS calls decide.
-/

namespace Bl616cl.Prefs

/-- The outcome of the allocation with number `i`. -/
def Heap.ok (heap : Heap) (i : Nat) : Bool := heap.getD i true

/-- The key that `_ns + "/" + key` is on this heap. Allocation 0 copies the namespace, 1 appends
the slash, 2 copies both and 3 appends the key. -/
def built (ns : List UInt8) (k : CStr) (heap : Heap) : List UInt8 :=
  (if heap.ok 2 then
    (if heap.ok 0 then ns else []) ++ (if heap.ok 1 then [0x2F] else [])
  else []) ++ (if heap.ok 3 then k.chars else [])

/-- The outcome of the `malloc` of the blob. An empty key is appended without an allocation. -/
def blobOk (k : CStr) (heap : Heap) : Bool := heap.ok (if k.chars = [] then 3 else 4)

/-- The put passes its own checks and updates the file with this name. -/
structure Reaches (p : Preferences) (k : CStr) (v : Value) (heap : Heap) (path : List UInt8) :
    Prop where
  writable : p.readOnly = false
  named : p.ns.text ≠ []
  lengthOk : v.payload.length ≤ 0xFFFFFF
  keyNonempty : built p.ns.text k heap ≠ []
  keyShort : (built p.ns.text k heap).length < efEnvNameMax
  blobOk : blobOk k heap = true
  fits : kvKey2Path (built p.ns.text k heap) = some path

/-! ## The String operations -/

theorem built_nil (ns : List UInt8) (k : CStr) : built ns k [] = joined ns k := by
  simp [built, joined, Heap.ok]

theorem alloc_fst (heap : Heap) : (alloc heap).1 = heap.ok 0 := by
  cases heap <;> rfl

theorem ok_alloc (heap : Heap) (i : Nat) : Heap.ok (alloc heap).2 i = heap.ok (i + 1) := by
  cases heap <;> rfl

namespace Preferences

variable {p : Preferences} {store : Store} {k : CStr} {heap : Heap} {lfs : LfsOutcome}
  {arg : PutArg} {v : Value} {path : List UInt8}

theorem makeKey_built (hns : p.ns.text ≠ []) :
    (p.makeKey (some k) heap).1.text = built p.ns.text k heap := by
  rw [makeKey_text hns]
  simp only [alloc_fst, ok_alloc]
  rfl

theorem alloc_makeKey (hns : p.ns.text ≠ []) :
    (alloc (p.makeKey (some k) heap).2).1 = blobOk k heap := by
  have hheap := (WString.add_text (s := p.ns) (List.cons_ne_nil 0x2F []) heap).2
  simp only [makeKey, if_neg (length_ns hns), hheap, alloc_fst, blobOk]
  by_cases hk : k.chars = []
  · simp only [hk, (WString.add_nil _).2, ok_alloc, if_true]
  · simp only [(WString.add_text hk _).2, ok_alloc, hk, if_false]

/-! ## The put -/

theorem put_reached (harg : arg.value = some v) (h : Reaches p k v heap path) :
    p.put store (some k) arg heap lfs =
      ((efSetEnvBlob store (built p.ns.text k heap) v.toBlob lfs).1,
        if (efSetEnvBlob store (built p.ns.text k heap) v.toBlob lfs).2 then v.payload.length
        else 0) := by
  have htext : (p.makeKey (some k) heap).1.text = built p.ns.text k heap := makeKey_built h.named
  have hchecks : ¬ (p.readOnly = true ∨ p.ns.length = 0 ∨ v.payload.length > 0xFFFFFF) := by
    rintro (hro | hzero | hlong)
    · rw [h.writable] at hro
      cases hro
    · exact length_ns h.named hzero
    · exact Nat.not_lt.mpr h.lengthOk hlong
  have hkey : ¬ ((p.makeKey (some k) heap).1.length = 0 ∨
      (p.makeKey (some k) heap).1.length ≥ efEnvNameMax) := by
    rw [WString.length, htext]
    rintro (hzero | hmax)
    · exact h.keyNonempty (List.length_eq_zero_iff.mp hzero)
    · exact Nat.not_lt.mpr hmax h.keyShort
  have hmalloc : (!(alloc (p.makeKey (some k) heap).2).1) = false := by
    rw [alloc_makeKey h.named, h.blobOk]
    rfl
  rw [put_eq harg, putValue]
  simp only [if_neg hchecks, if_neg hkey, hmalloc, Bool.false_eq_true, if_false, htext]
  rfl

theorem put_refused (harg : arg.value = some v) (h : ∀ path, ¬ Reaches p k v heap path) :
    p.put store (some k) arg heap lfs = (store, 0) := by
  rw [put_eq harg]
  by_cases hchecks : p.readOnly = true ∨ p.ns.length = 0 ∨ v.payload.length > 0xFFFFFF
  · simp only [putValue, if_pos hchecks]
  · by_cases hkey : (p.makeKey (some k) heap).1.length = 0 ∨
        (p.makeKey (some k) heap).1.length ≥ efEnvNameMax
    · simp only [putValue, if_neg hchecks, if_pos hkey]
    · by_cases hmalloc : (!(alloc (p.makeKey (some k) heap).2).1) = true
      · simp only [putValue, if_neg hchecks, if_neg hkey, if_pos hmalloc]
      · simp only [putValue, if_neg hchecks, if_neg hkey, if_neg hmalloc]
        rw [not_or, not_or, Bool.not_eq_true] at hchecks
        have hns : p.ns.text ≠ [] := mt List.length_eq_zero_iff.mpr hchecks.2.1
        rw [WString.length, makeKey_built hns, not_or] at hkey
        rw [alloc_makeKey hns, Bool.not_eq_true', Bool.not_eq_false] at hmalloc
        have hpath : kvKey2Path (built p.ns.text k heap) = none := by
          refine Option.eq_none_iff_forall_not_mem.mpr fun path hfit => h path ?_
          exact ⟨hchecks.1, hns, Nat.not_lt.mp hchecks.2.2,
            mt List.length_eq_zero_iff.mpr hkey.1, Nat.not_le.mp hkey.2, hmalloc, hfit⟩
        have hblob : (makeBlob v.type v.payload).length ≠ 0 := Nat.succ_ne_zero _
        simp only [makeKey_built hns, efSetEnvBlob, if_neg hblob, hpath]
        rfl

theorem put_nullKey : p.put store none arg heap lfs = (store, 0) := by
  cases harg : arg.value with
  | none => exact put_null harg
  | some v =>
    rw [put_eq harg, putValue]
    simp [makeKey, WString.init, WString.length]

end Preferences

end Bl616cl.Prefs
