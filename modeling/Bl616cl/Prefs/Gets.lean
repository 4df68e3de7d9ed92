import Mathlib.Data.List.TakeWhile
import Bl616cl.Prefs.Preferences

/-!
# What a get returns

A key is joined from namespace, slash and key as far as the heap allows, and every get of a key
returns what the value whose blob is stored there says (`reads_of_blob`).
-/

namespace Bl616cl.Prefs

/-- The EasyFlash key of a key in a namespace. -/
def joined (ns : List UInt8) (key : CStr) : List UInt8 := ns ++ 0x2F :: key.chars

def Value.toBlob (v : Value) : List UInt8 := makeBlob v.type v.payload

theorem toBlob_ne_nil {v : Value} : v.toBlob ≠ [] := List.cons_ne_nil _ _

namespace Preferences

variable {p : Preferences} {store : Store} {k : CStr} {heap : Heap}

theorem length_ns (hns : p.ns.text ≠ []) : ¬ p.ns.length = 0 :=
  mt List.length_eq_zero_iff.mp hns

/-- The key that `makeKey` builds, with the outcomes of its allocations: the copy of the
namespace, the slash, the copy of both, and the key. -/
theorem makeKey_text (hns : p.ns.text ≠ []) (k : CStr) (heap : Heap) :
    (p.makeKey (some k) heap).1.text =
      (if (alloc (alloc (alloc heap).2).2).1 then
        (if (alloc heap).1 then p.ns.text else []) ++
          (if (alloc (alloc heap).2).1 then [0x2F] else [])
      else []) ++ (if (alloc (alloc (alloc (alloc heap).2).2).2).1 then k.chars else []) := by
  obtain ⟨hslash, hheap⟩ :=
    WString.add_text (s := p.ns) (List.cons_ne_nil 0x2F []) heap
  simp only [makeKey, if_neg (length_ns hns), hheap]
  by_cases hk : k.chars = []
  · rw [hk, (WString.add_nil _).1, hslash]
    simp
  · rw [(WString.add_text hk _).1, hslash]

theorem makeKey_joined (hns : p.ns.text ≠ []) :
    (p.makeKey (some k) []).1.text = joined p.ns.text k := by
  rw [makeKey_text hns]
  simp [alloc, joined]

theorem length_joined (ns : List UInt8) (k : CStr) :
    (joined ns k).length = ns.length + 1 + k.chars.length := by
  simp [joined]
  omega

theorem blobOf_eq (store : Store) (hns : p.ns.text ≠ []) :
    p.blobOf store (some k) = readBlob store (joined p.ns.text k) := by
  have htext := makeKey_joined (k := k) hns
  have hlen : ¬ (p.makeKey (some k) []).1.length = 0 := by
    rw [WString.length, htext, length_joined]
    omega
  rw [blobOf, if_neg (length_ns hns)]
  simp only [if_neg hlen, htext]

/-- Every typed get of the key returns what `v` says. -/
structure Reads (p : Preferences) (store : Store) (key : Option CStr) (v : Option Value) :
    Prop where
  scalar : ∀ K d, p.getScalar store K key d = Value.asScalar K d v
  string : ∀ d, p.getString store key d = Value.asString d v
  bytes : ∀ maxLen, p.getBytes store key maxLen = Value.asBytes maxLen v
  bytesLength : p.getBytesLength store key = Value.asBytesLength v
  type : p.getType store key = Value.asType v

theorem reads_none (h : p.blobOf store (some k) = none) : p.Reads store (some k) none := by
  constructor <;> simp [getScalar, getValue, getString, getBytes, getBytesLength, getType, h,
    Value.asScalar, Value.asString, Value.asBytes, Value.asBytesLength, Value.asType]

theorem takeWhile_noNul (s : CStr) : s.chars.takeWhile (fun c => !decide (c = 0)) = s.chars := by
  rw [List.takeWhile_eq_self_iff]
  intro c hc
  have hne : c ≠ 0 := fun h => s.noNul (h ▸ hc)
  simpa using hne

theorem type_ne_str (K : IntKind) : K.type ≠ .str := by cases K <;> decide

theorem type_ne_blob (K : IntKind) : K.type ≠ .blob := by cases K <;> decide

theorem type_inj {K K' : IntKind} (h : K.type = K'.type) : K = K' := by
  cases K <;> cases K' <;> first | rfl | cases h

variable {v : Value}

theorem getValue_toBlob (h : p.blobOf store (some k) = some v.toBlob)
    (hlen : v.payload.length ≤ 0xFFFFFF) (type : PreferenceType) (len : Nat) :
    p.getValue store (some k) type len =
      if v.type = type ∧ v.payload.length = len then some v.payload else none := by
  have hbl : blobLen v.toBlob = v.payload.length := blobLen_makeBlob hlen
  have htot : v.toBlob.length = valueHeader + v.payload.length := length_makeBlob
  have hdrop : v.toBlob.drop valueHeader = v.payload := drop_makeBlob
  have hhead : v.toBlob.headD 0 = v.type.code := headD_makeBlob
  simp only [getValue, h, hbl, htot, hdrop, hhead, List.take_length, ne_eq, not_true, or_false,
    PreferenceType.code_inj]
  by_cases ht : v.type = type <;> by_cases hl : v.payload.length = len <;> simp [ht, hl]

/-- **Gets**: where the key holds a value's blob, every get returns what the value says. -/
theorem reads_of_blob (h : p.blobOf store (some k) = some v.toBlob)
    (hlen : v.payload.length ≤ 0xFFFFFF) : p.Reads store (some k) (some v) := by
  have hbl : blobLen v.toBlob = v.payload.length := blobLen_makeBlob hlen
  have htot : v.toBlob.length = valueHeader + v.payload.length := length_makeBlob
  have hdrop : v.toBlob.drop valueHeader = v.payload := drop_makeBlob
  have hhead : v.toBlob.headD 0 = v.type.code := headD_makeBlob
  refine ⟨fun K d => ?_, fun d => ?_, fun maxLen => ?_, ?_, ?_⟩
  · rw [getScalar, getValue_toBlob h hlen]
    cases v with
    | scalar K' w =>
      by_cases hK : K' = K
      · subst hK
        have hsmall : w.toNat < 2 ^ (8 * K'.size) := w.isLt
        simp [Value.type, Value.payload, Value.asScalar, ofLe_leBytes hsmall]
      · have ht : K'.type ≠ K.type := fun e => hK (type_inj e)
        simp [Value.type, ht, Value.asScalar, hK]
    | str s => simp [Value.type, (type_ne_str K).symm, Value.asScalar]
    | blob bytes => simp [Value.type, (type_ne_blob K).symm, Value.asScalar]
  · simp only [getString, h, hbl, htot, hdrop, hhead, List.take_length, ne_eq, not_true,
      PreferenceType.code_inj, if_false]
    cases v with
    | scalar K' w => simp [Value.type, type_ne_str K', Value.asString]
    | str s => simp [Value.type, Value.payload, Value.asString, takeWhile_noNul]
    | blob bytes => simp [Value.type, Value.asString]
  · simp only [getBytes, h, hbl, htot, hdrop, hhead, List.take_length, ne_eq, not_true, false_or,
      PreferenceType.code_inj]
    cases v with
    | scalar K' w => simp [Value.type, type_ne_blob K', Value.asBytes]
    | str s => simp [Value.type, Value.asBytes]
    | blob bytes =>
      by_cases hmax : bytes.length ≤ maxLen
      · simp [Value.type, Value.payload, Value.asBytes, hmax, Nat.not_lt.mpr hmax]
      · simp [Value.type, Value.payload, Value.asBytes, hmax, Nat.lt_of_not_le hmax]
  · simp only [getBytesLength, h, hbl, htot, hhead, if_true, ne_eq, PreferenceType.code_inj]
    cases v with
    | scalar K' w => simp [Value.type, type_ne_blob K', Value.asBytesLength]
    | str s => simp [Value.type, Value.asBytesLength]
    | blob bytes => simp [Value.type, Value.payload, Value.asBytesLength]
  · simp only [getType, h, hhead, PreferenceType.ofCode_code, Value.asType]

theorem readBlob_toBlob {key : List UInt8} (h : efGetEnvBlob store key = some v.toBlob) :
    readBlob store key = some v.toBlob := by
  have htot : v.toBlob.length = valueHeader + v.payload.length := length_makeBlob
  rw [readBlob, h]
  simp [htot]

theorem readBlob_none {key : List UInt8} (h : efGetEnvBlob store key = none) :
    readBlob store key = none := by
  rw [readBlob, h]

end Preferences

end Bl616cl.Prefs
