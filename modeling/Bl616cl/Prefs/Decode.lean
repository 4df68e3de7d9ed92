import Bl616cl.Lib.Memory
import Bl616cl.Lib.Word
import Bl616cl.Prefs.Map
import Bl616cl.Prefs.Race

/-!
# The decoders on the blob in memory

The getters as they read the heap buffer of `read_blob`, with the checks in `size_t` arithmetic of
32 bits, the output buffer, and how many bytes of the blob they read. `VALUE_HEADER + len` can wrap
around, but only to less than a header, so the checks accept what `putValue` writes and nothing
else: `decodes`.
-/

namespace Bl616cl.Prefs

open Bl616cl.Lib Preferences

/-- `LFS_FILE_MAX`. -/
def lfsFileMax : Nat := 2147483647

/-- The end of a getter: what it returns, the output buffer, and how many leading bytes of the blob
it has read. -/
structure Decoded (R : Type) where
  ret : R
  out : Nat → UInt8
  reads : Nat

variable (b : HeapBlob) (total : Nat)

/-- `getValue` behind `read_blob`. -/
def decodeValue (type : PreferenceType) (out : Nat → UInt8) (len : Nat) : Decoded Bool :=
  if b.mem 0 ≠ type.code then ⟨false, out, 1⟩
  else if b.len ≠ len ∨ total ≠ add32 valueHeader b.len then ⟨false, out, valueHeader⟩
  else ⟨true, Memory.write out 0 (b.copy valueHeader b.len), valueHeader + b.len⟩

/-- `getString`; it has no output buffer. -/
def decodeString (defaultValue : List UInt8) : List UInt8 × Nat :=
  if b.mem 0 ≠ PreferenceType.str.code then (defaultValue, 1)
  else if total ≠ add32 valueHeader b.len then (defaultValue, valueHeader)
  else ((b.copy valueHeader b.len).takeWhile (· ≠ 0), valueHeader + b.len)

def decodeBytesLength : Nat × Nat :=
  if b.mem 0 ≠ PreferenceType.blob.code then (0, 1)
  else (if total = add32 valueHeader b.len then b.len else 0, valueHeader)

def decodeBytes (out : Nat → UInt8) (maxLen : Nat) : Decoded Nat :=
  if b.mem 0 ≠ PreferenceType.blob.code then ⟨0, out, 1⟩
  else if total ≠ add32 valueHeader b.len ∨ b.len > maxLen then ⟨0, out, valueHeader⟩
  else ⟨b.len, Memory.write out 0 (b.copy valueHeader b.len), valueHeader + b.len⟩

namespace Preferences

variable (p : Preferences) (store : Store) (key : Option CStr) (junk : Nat → UInt8)

/-- The buffer of `read_blob` and `total`; `junk` is what the heap held. -/
def fetch : Option (HeapBlob × Nat) :=
  if p.ns.length = 0 then none
  else if (p.makeKey key []).1.length = 0 then none
  else match readBlobSize store (p.makeKey key []).1.text true true with
    | none => none
    | some size => readBlobFetch store (p.makeKey key []).1.text size true junk

def getValueInto (type : PreferenceType) (out : Nat → UInt8) (len : Nat) : Decoded Bool :=
  match p.fetch store key junk with
  | none => ⟨false, out, 0⟩
  | some (b, total) => decodeValue b total type out len

/-- The get of an integer type; `out` is what its local variable held. -/
def getScalarInto (K : IntKind) (out : Nat → UInt8) (defaultValue : BitVec (8 * K.size)) :
    BitVec (8 * K.size) :=
  let r := p.getValueInto store key junk K.type out K.size
  if r.ret then BitVec.ofNat _ (ofLe (Memory.read r.out 0 K.size)) else defaultValue

def getStringRead (defaultValue : List UInt8) : List UInt8 × Nat :=
  match p.fetch store key junk with
  | none => (defaultValue, 0)
  | some (b, total) => decodeString b total defaultValue

def getBytesLengthRead : Nat × Nat :=
  match p.fetch store key junk with
  | none => (0, 0)
  | some (b, total) => decodeBytesLength b total

/-- `getBytes`, with a buffer that is not the null pointer. -/
def getBytesInto (out : Nat → UInt8) (maxLen : Nat) : Decoded Nat :=
  match p.fetch store key junk with
  | none => ⟨0, out, 0⟩
  | some (b, total) => decodeBytes b total out maxLen

end Preferences

/-- What the getters make of the blob behind a key. -/
structure Decodes (p : Preferences) (store : Store) (key : Option CStr) (blob : List UInt8) :
    Prop where
  value : ∀ junk type out len,
    ((p.getValueInto store key junk type out len).ret = true ↔
      ∃ q : List UInt8, q.length = len ∧ blob = makeBlob type q) ∧
    (∀ q : List UInt8, q.length = len → blob = makeBlob type q →
      (p.getValueInto store key junk type out len).out = Memory.write out 0 q) ∧
    ((p.getValueInto store key junk type out len).ret = false →
      (p.getValueInto store key junk type out len).out = out)
  bytes : ∀ junk out maxLen,
    (∀ q : List UInt8, q.length ≤ maxLen → blob = makeBlob .blob q →
      (p.getBytesInto store key junk out maxLen).ret = q.length ∧
      (p.getBytesInto store key junk out maxLen).out = Memory.write out 0 q) ∧
    ((∀ q : List UInt8, q.length ≤ maxLen → blob ≠ makeBlob .blob q) →
      (p.getBytesInto store key junk out maxLen).ret = 0 ∧
      (p.getBytesInto store key junk out maxLen).out = out)
  bytesLength : ∀ junk,
    (∀ q, blob = makeBlob .blob q → (p.getBytesLengthRead store key junk).1 = q.length) ∧
    ((∀ q, blob ≠ makeBlob .blob q) → (p.getBytesLengthRead store key junk).1 = 0)
  string : ∀ junk d,
    (∀ q, blob = makeBlob .str q →
      (p.getStringRead store key junk d).1 = q.takeWhile (· ≠ 0)) ∧
    ((∀ q, blob ≠ makeBlob .str q) → (p.getStringRead store key junk d).1 = d)
  /-- None reads beyond the blob. -/
  reads : ∀ junk type out len d maxLen,
    (p.getValueInto store key junk type out len).reads ≤ blob.length ∧
    (p.getStringRead store key junk d).2 ≤ blob.length ∧
    (p.getBytesLengthRead store key junk).2 ≤ blob.length ∧
    (p.getBytesInto store key junk out maxLen).reads ≤ blob.length

/-! ## The image of the encoder -/

theorem putLe32_getLe32 (a b c d : UInt8) (rest : List UInt8) :
    putLe32 (getLe32 (a :: b :: c :: d :: rest)) = [a, b, c, d] := by
  have ha := a.toNat_lt
  have hb := b.toNat_lt
  have hc := c.toNat_lt
  have hd := d.toNat_lt
  rw [getLe32_eq]
  simp only [putLe32, Nat.shiftRight_eq_div_pow, List.cons.injEq, and_true]
  refine ⟨?_, ?_, ?_, ?_⟩ <;>
  · apply UInt8.toNat_inj.mp
    rw [UInt8.toNat_ofNat']
    omega

/-- The header's sum is the size of the blob exactly if it has not wrapped around. -/
theorem eq_add32_iff {total len : Nat} (hheader : valueHeader ≤ total) (htotal : total ≤ lfsFileMax)
    (hlen : len < 2 ^ 32) : total = add32 valueHeader len ↔ total = valueHeader + len := by
  have hmax : lfsFileMax = 2147483647 := rfl
  have hfive : valueHeader = 5 := rfl
  unfold add32
  omega

theorem blobLen_lt {blob : List UInt8} (h : valueHeader ≤ blob.length) : blobLen blob < 2 ^ 32 := by
  match blob, h with
  | t :: a :: b :: c :: d :: rest, _ =>
    have ha := a.toNat_lt
    have hb := b.toNat_lt
    have hc := c.toNat_lt
    have hd := d.toNat_lt
    rw [blobLen, List.drop_one, List.tail_cons, getLe32_eq]
    omega

theorem blobLen_image {type : PreferenceType} {q : List UInt8} (h : q.length < 2 ^ 32) :
    blobLen (makeBlob type q) = q.length :=
  getLe32_putLe32 h q

/-- What passes the checks of a type is its blob for the payload behind the header. -/
theorem image_iff {blob : List UInt8} {type : PreferenceType} (hheader : valueHeader ≤ blob.length)
    (hmax : blob.length ≤ lfsFileMax) (q : List UInt8) : blob = makeBlob type q ↔
      (blob.headD 0 = type.code ∧ blob.length = valueHeader + blobLen blob) ∧
        blob.drop valueHeader = q := by
  have hfive : valueHeader = 5 := rfl
  have hfile : lfsFileMax = 2147483647 := rfl
  constructor
  · rintro rfl
    have hlength : (makeBlob type q).length = valueHeader + q.length := length_makeBlob
    refine ⟨⟨headD_makeBlob, ?_⟩, drop_makeBlob⟩
    rw [length_makeBlob, blobLen_image (by omega)]
  · match blob, hheader with
    | t :: a :: b :: c :: d :: rest, _ =>
      rintro ⟨⟨hhead, hlength⟩, rfl⟩
      have hhead : t = type.code := hhead
      have hrest : rest.length = getLe32 (a :: b :: c :: d :: rest) := by
        simp only [blobLen, List.drop_one, List.tail_cons, List.length_cons] at hlength
        omega
      have hpayload : (t :: a :: b :: c :: d :: rest).drop valueHeader = rest := rfl
      rw [hpayload, makeBlob, hrest, putLe32_getLe32, hhead]
      rfl

/-! ## The getters on a stored blob -/

variable {b : HeapBlob} {blob : List UInt8}

/-- A buffer that holds the blob, as the checks see it. -/
structure Checked (b : HeapBlob) (blob : List UInt8) : Prop where
  header : valueHeader ≤ blob.length
  bound : blob.length ≤ lfsFileMax
  head : b.mem 0 = blob.headD 0
  len : b.len = blobLen blob
  payload : blob.length = valueHeader + blobLen blob →
    b.copy valueHeader (blobLen blob) = blob.drop valueHeader

theorem Checked.sum_iff (h : Checked b blob) : blob.length = add32 valueHeader (blobLen blob) ↔
    blob.length = valueHeader + blobLen blob :=
  eq_add32_iff h.header h.bound (blobLen_lt h.header)

theorem checked_fill (hheader : valueHeader ≤ blob.length) (hmax : blob.length ≤ lfsFileMax)
    (junk : Nat → UInt8) : Checked (HeapBlob.fill blob.length blob junk) blob := by
  have hholds := HeapBlob.holds_fill blob.length blob junk
  rw [List.take_length] at hholds
  have hfilled : (HeapBlob.fill blob.length blob junk).filled = blob.length := rfl
  refine ⟨hheader, hmax, hholds.head_eq (by omega), hholds.len_eq (by omega), fun htotal => ?_⟩
  rw [hholds.copy_eq (by omega), List.take_of_length_le]
  rw [List.length_drop]
  omega

theorem decodeValue_cases (h : Checked b blob) (type : PreferenceType) (out : Nat → UInt8)
    (len : Nat) :
    (((blob.headD 0 = type.code ∧ blob.length = valueHeader + blobLen blob) ∧ blobLen blob = len) ∧
      decodeValue b blob.length type out len =
        ⟨true, Memory.write out 0 (blob.drop valueHeader), blob.length⟩) ∨
    (¬ ((blob.headD 0 = type.code ∧ blob.length = valueHeader + blobLen blob) ∧
        blobLen blob = len) ∧
      ∃ n, n ≤ valueHeader ∧ decodeValue b blob.length type out len = ⟨false, out, n⟩) := by
  simp only [decodeValue, h.head, h.len, ne_eq, h.sum_iff]
  split
  · next hhead => exact Or.inr ⟨fun hok => hhead hok.1.1, 1, by decide, rfl⟩
  · next hhead =>
    split
    · next hbad =>
      refine Or.inr ⟨fun hok => ?_, _, Nat.le_refl _, rfl⟩
      rcases hbad with hlen | htotal
      · exact hlen hok.2
      · exact htotal hok.1.2
    · next hok =>
      rw [not_or, not_not, not_not] at hok
      rw [not_not] at hhead
      refine Or.inl ⟨⟨⟨hhead, hok.2⟩, hok.1⟩, ?_⟩
      rw [h.payload hok.2, ← hok.2]

theorem decodeBytes_cases (h : Checked b blob) (out : Nat → UInt8) (maxLen : Nat) :
    (((blob.headD 0 = PreferenceType.blob.code ∧ blob.length = valueHeader + blobLen blob) ∧
        blobLen blob ≤ maxLen) ∧
      decodeBytes b blob.length out maxLen =
        ⟨blobLen blob, Memory.write out 0 (blob.drop valueHeader), blob.length⟩) ∨
    (¬ ((blob.headD 0 = PreferenceType.blob.code ∧ blob.length = valueHeader + blobLen blob) ∧
        blobLen blob ≤ maxLen) ∧
      ∃ n, n ≤ valueHeader ∧ decodeBytes b blob.length out maxLen = ⟨0, out, n⟩) := by
  simp only [decodeBytes, h.head, h.len, ne_eq, h.sum_iff]
  split
  · next hhead => exact Or.inr ⟨fun hok => hhead hok.1.1, 1, by decide, rfl⟩
  · next hhead =>
    split
    · next hbad =>
      refine Or.inr ⟨fun hok => ?_, _, Nat.le_refl _, rfl⟩
      rcases hbad with htotal | hlen
      · exact htotal hok.1.2
      · exact Nat.not_lt.mpr hok.2 hlen
    · next hok =>
      rw [not_or, not_not, Nat.not_lt] at hok
      rw [not_not] at hhead
      refine Or.inl ⟨⟨⟨hhead, hok.1⟩, hok.2⟩, ?_⟩
      rw [h.payload hok.1, ← hok.1]

theorem decodeString_cases (h : Checked b blob) (d : List UInt8) :
    ((blob.headD 0 = PreferenceType.str.code ∧ blob.length = valueHeader + blobLen blob) ∧
      decodeString b blob.length d =
        ((blob.drop valueHeader).takeWhile (· ≠ 0), blob.length)) ∨
    (¬ (blob.headD 0 = PreferenceType.str.code ∧ blob.length = valueHeader + blobLen blob) ∧
      ∃ n, n ≤ valueHeader ∧ decodeString b blob.length d = (d, n)) := by
  simp only [decodeString, h.head, h.len, ne_eq, h.sum_iff]
  split
  · next hhead => exact Or.inr ⟨fun hok => hhead hok.1, 1, by decide, rfl⟩
  · next hhead =>
    split
    · next hbad => exact Or.inr ⟨fun hok => hbad hok.2, _, Nat.le_refl _, rfl⟩
    · next hok =>
      rw [not_not] at hok hhead
      refine Or.inl ⟨⟨hhead, hok⟩, ?_⟩
      rw [h.payload hok, ← hok]

theorem decodeBytesLength_cases (h : Checked b blob) :
    ((blob.headD 0 = PreferenceType.blob.code ∧ blob.length = valueHeader + blobLen blob) ∧
      decodeBytesLength b blob.length = (blobLen blob, valueHeader)) ∨
    (¬ (blob.headD 0 = PreferenceType.blob.code ∧ blob.length = valueHeader + blobLen blob) ∧
      ∃ n, n ≤ valueHeader ∧ decodeBytesLength b blob.length = (0, n)) := by
  simp only [decodeBytesLength, h.head, h.len, ne_eq, h.sum_iff]
  split
  · next hhead => exact Or.inr ⟨fun hok => hhead hok.1, 1, by decide, rfl⟩
  · next hhead =>
    rw [not_not] at hhead
    split
    · next hok => exact Or.inl ⟨⟨hhead, hok⟩, rfl⟩
    · next hbad => exact Or.inr ⟨fun hok => hbad hok.2, _, Nat.le_refl _, rfl⟩

theorem length_payload (htotal : blob.length = valueHeader + blobLen blob) :
    (blob.drop valueHeader).length = blobLen blob := by
  rw [List.length_drop]
  omega

theorem Checked.image (h : Checked b blob) (type : PreferenceType) (q : List UInt8) :
    blob = makeBlob type q ↔
      (blob.headD 0 = type.code ∧ blob.length = valueHeader + blobLen blob) ∧
        blob.drop valueHeader = q :=
  image_iff h.header h.bound q

/-! Each getter on what passes its checks, and on anything else. -/

theorem decodeValue_spec (h : Checked b blob) (type : PreferenceType) (out : Nat → UInt8)
    (len : Nat) :
    ((decodeValue b blob.length type out len).ret = true ↔
      ∃ q : List UInt8, q.length = len ∧ blob = makeBlob type q) ∧
    (∀ q : List UInt8, q.length = len → blob = makeBlob type q →
      (decodeValue b blob.length type out len).out = Memory.write out 0 q) ∧
    ((decodeValue b blob.length type out len).ret = false →
      (decodeValue b blob.length type out len).out = out) ∧
    (decodeValue b blob.length type out len).reads ≤ blob.length := by
  rcases decodeValue_cases h type out len with ⟨⟨hok, hlen⟩, heq⟩ | ⟨hbad, n, hn, heq⟩
  · rw [heq]
    have hpayload := length_payload hok.2
    have himage := (h.image type _).mpr ⟨hok, rfl⟩
    refine ⟨⟨fun _ => ⟨_, hpayload.trans hlen, himage⟩, fun _ => rfl⟩, ?_, by simp, Nat.le_refl _⟩
    rintro q - hq
    rw [((h.image type q).mp hq).2]
  · rw [heq]
    have hnot : ∀ q : List UInt8, q.length = len → blob ≠ makeBlob type q := by
      intro q hlen hq
      obtain ⟨hok, rfl⟩ := (h.image type q).mp hq
      exact hbad ⟨hok, (length_payload hok.2).symm.trans hlen⟩
    refine ⟨⟨by simp, fun ⟨q, hlen, hq⟩ => absurd hq (hnot q hlen)⟩, ?_, fun _ => rfl,
      Nat.le_trans hn h.header⟩
    exact fun q hlen hq => absurd hq (hnot q hlen)

theorem decodeBytes_spec (h : Checked b blob) (out : Nat → UInt8) (maxLen : Nat) :
    (∀ q : List UInt8, q.length ≤ maxLen → blob = makeBlob .blob q →
      (decodeBytes b blob.length out maxLen).ret = q.length ∧
      (decodeBytes b blob.length out maxLen).out = Memory.write out 0 q) ∧
    ((∀ q : List UInt8, q.length ≤ maxLen → blob ≠ makeBlob .blob q) →
      (decodeBytes b blob.length out maxLen).ret = 0 ∧
      (decodeBytes b blob.length out maxLen).out = out) ∧
    (decodeBytes b blob.length out maxLen).reads ≤ blob.length := by
  rcases decodeBytes_cases h out maxLen with ⟨⟨hok, hle⟩, heq⟩ | ⟨hbad, n, hn, heq⟩
  · rw [heq]
    have hpayload := length_payload hok.2
    refine ⟨fun q _ hq => ?_, fun hnot => ?_, Nat.le_refl _⟩
    · obtain ⟨-, rfl⟩ := (h.image .blob q).mp hq
      exact ⟨hpayload.symm, rfl⟩
    · exact absurd ((h.image .blob _).mpr ⟨hok, rfl⟩) (hnot _ (by omega))
  · rw [heq]
    refine ⟨fun q hle hq => ?_, fun _ => ⟨rfl, rfl⟩, Nat.le_trans hn h.header⟩
    obtain ⟨hok, rfl⟩ := (h.image .blob q).mp hq
    rw [length_payload hok.2] at hle
    exact absurd ⟨hok, hle⟩ hbad

theorem decodeBytesLength_spec (h : Checked b blob) :
    (∀ q, blob = makeBlob .blob q → (decodeBytesLength b blob.length).1 = q.length) ∧
    ((∀ q, blob ≠ makeBlob .blob q) → (decodeBytesLength b blob.length).1 = 0) ∧
    (decodeBytesLength b blob.length).2 ≤ blob.length := by
  rcases decodeBytesLength_cases h with ⟨hok, heq⟩ | ⟨hbad, n, hn, heq⟩
  · rw [heq]
    refine ⟨fun q hq => ?_, fun hnot => ?_, h.header⟩
    · obtain ⟨-, rfl⟩ := (h.image .blob q).mp hq
      exact (length_payload hok.2).symm
    · exact absurd ((h.image .blob _).mpr ⟨hok, rfl⟩) (hnot _)
  · rw [heq]
    exact ⟨fun q hq => absurd ((h.image .blob q).mp hq).1 hbad, fun _ => rfl,
      Nat.le_trans hn h.header⟩

theorem decodeString_spec (h : Checked b blob) (d : List UInt8) :
    (∀ q, blob = makeBlob .str q →
      (decodeString b blob.length d).1 = q.takeWhile (· ≠ 0)) ∧
    ((∀ q, blob ≠ makeBlob .str q) → (decodeString b blob.length d).1 = d) ∧
    (decodeString b blob.length d).2 ≤ blob.length := by
  rcases decodeString_cases h d with ⟨hok, heq⟩ | ⟨hbad, n, hn, heq⟩
  · rw [heq]
    refine ⟨fun q hq => ?_, fun hnot => ?_, Nat.le_refl _⟩
    · obtain ⟨-, rfl⟩ := (h.image .str q).mp hq
      rfl
    · exact absurd ((h.image .str _).mpr ⟨hok, rfl⟩) (hnot _)
  · rw [heq]
    exact ⟨fun q hq => absurd ((h.image .str q).mp hq).1 hbad, fun _ => rfl,
      Nat.le_trans hn h.header⟩

namespace Preferences

variable {p : Preferences} {store : Store} {k : CStr}

theorem fetch_eq (hns : p.ns.text ≠ [])
    (hstored : efGetEnvBlob store (joined p.ns.text k) = some blob) (junk : Nat → UInt8) :
    p.fetch store (some k) junk =
      if valueHeader ≤ blob.length then some (HeapBlob.fill blob.length blob junk, blob.length)
      else none := by
  have htext := makeKey_joined (k := k) hns
  have hlen : ¬ (p.makeKey (some k) []).1.length = 0 := by
    rw [WString.length, htext, length_joined]
    omega
  simp only [fetch, if_neg (length_ns hns), if_neg hlen, htext]
  have hsize : readBlobSize store (joined p.ns.text k) true true =
      if blob.length < valueHeader then none else some blob.length := by
    simp [readBlobSize, efGetEnvBlobInto, hstored]
  rw [hsize]
  split
  · next hnone =>
    split at hnone
    · next hshort => rw [if_neg (by omega)]
    · cases hnone
  · next size hsome =>
    split at hsome
    · cases hsome
    · next hlong =>
      obtain rfl := Option.some.inj hsome
      rw [readBlobFetch_eq (by omega), hstored]
      simp [Nat.not_lt.mp hlong]

/-- A blob without a header is no value's. -/
theorem decodes_short (hns : p.ns.text ≠ [])
    (hstored : efGetEnvBlob store (joined p.ns.text k) = some blob)
    (hshort : ¬ valueHeader ≤ blob.length) : Decodes p store (some k) blob := by
  have hnone : ∀ junk, p.fetch store (some k) junk = none := fun junk => by
    rw [fetch_eq hns hstored, if_neg hshort]
  have hnot : ∀ type q, blob ≠ makeBlob type q := by
    rintro type q rfl
    rw [length_makeBlob] at hshort
    omega
  constructor
  · intro junk type out len
    simp [getValueInto, hnone, hnot]
  · intro junk out maxLen
    simp [getBytesInto, hnone, hnot]
  · intro junk
    simp [getBytesLengthRead, hnone, hnot]
  · intro junk d
    simp [getStringRead, hnone, hnot]
  · intro junk type out len d maxLen
    simp [getValueInto, getBytesInto, getBytesLengthRead, getStringRead, hnone]

/-- **Decoders**: a getter succeeds on what the encoder writes for its type, and on nothing else. -/
theorem decodes_blob (hns : p.ns.text ≠ [])
    (hstored : efGetEnvBlob store (joined p.ns.text k) = some blob)
    (hmax : blob.length ≤ lfsFileMax) : Decodes p store (some k) blob := by
  by_cases hheader : valueHeader ≤ blob.length
  · have hfetch : ∀ junk, p.fetch store (some k) junk =
        some (HeapBlob.fill blob.length blob junk, blob.length) := fun junk => by
      rw [fetch_eq hns hstored, if_pos hheader]
    have hchecked := checked_fill hheader hmax
    constructor
    · intro junk type out len
      simp only [getValueInto, hfetch]
      obtain ⟨hret, hout, huntouched, -⟩ := decodeValue_spec (hchecked junk) type out len
      exact ⟨hret, hout, huntouched⟩
    · intro junk out maxLen
      simp only [getBytesInto, hfetch]
      obtain ⟨hcopied, hrefused, -⟩ := decodeBytes_spec (hchecked junk) out maxLen
      exact ⟨hcopied, hrefused⟩
    · intro junk
      simp only [getBytesLengthRead, hfetch]
      obtain ⟨hlength, hrefused, -⟩ := decodeBytesLength_spec (hchecked junk)
      exact ⟨hlength, hrefused⟩
    · intro junk d
      simp only [getStringRead, hfetch]
      obtain ⟨hstring, hrefused, -⟩ := decodeString_spec (hchecked junk) d
      exact ⟨hstring, hrefused⟩
    · intro junk type out len d maxLen
      simp only [getValueInto, getStringRead, getBytesLengthRead, getBytesInto, hfetch]
      exact ⟨(decodeValue_spec (hchecked junk) type out len).2.2.2,
        (decodeString_spec (hchecked junk) d).2.2, (decodeBytesLength_spec (hchecked junk)).2.2,
        (decodeBytes_spec (hchecked junk) out maxLen).2.2⟩
  · exact decodes_short hns hstored hheader

/-- Every get of the value's own type returns it. -/
def Returned (p : Preferences) (store : Store) (key : Option CStr) : Value → Prop
  | .scalar K w => ∀ junk out d, p.getScalarInto store key junk K out d = w
  | .str s => ∀ junk d, (p.getStringRead store key junk d).1 = s.chars
  | .blob bytes => ∀ junk, (p.getBytesLengthRead store key junk).1 = bytes.length ∧
      ∀ out maxLen, bytes.length ≤ maxLen →
        (p.getBytesInto store key junk out maxLen).ret = bytes.length ∧
        (p.getBytesInto store key junk out maxLen).out = Memory.write out 0 bytes

theorem returned_of_decodes {v : Value} (h : Decodes p store (some k) v.toBlob) :
    p.Returned store (some k) v := by
  cases v with
  | scalar K w =>
    intro junk out d
    obtain ⟨hret, hout, -⟩ := h.value junk K.type out K.size
    have hlength : (leBytes K.size w.toNat).length = K.size := length_leBytes _ _
    have hok := hret.mpr ⟨_, hlength, rfl⟩
    have hread : Memory.read (Memory.write out 0 (leBytes K.size w.toNat)) 0 K.size =
        leBytes K.size w.toNat := by
      have hback : Memory.read (Memory.write out 0 (leBytes K.size w.toNat)) 0
          (leBytes K.size w.toNat).length = leBytes K.size w.toNat := Memory.read_write
      rwa [hlength] at hback
    simp only [getScalarInto, hok, if_true, hout _ hlength rfl, hread, ofLe_leBytes w.isLt]
    exact BitVec.ofNat_toNat _ w |>.trans (BitVec.setWidth_eq w)
  | str s =>
    intro junk d
    have hchars : s.chars.takeWhile (· ≠ 0) = s.chars := by
      simp only [ne_eq, decide_not]
      exact takeWhile_noNul s
    exact ((h.string junk d).1 _ rfl).trans hchars
  | blob bytes =>
    intro junk
    exact ⟨(h.bytesLength junk).1 _ rfl,
      fun out maxLen hle => (h.bytes junk out maxLen).1 _ hle rfl⟩

theorem returned_put {arg : PutArg} {v : Value} (harg : arg.value = some v) (ha : Accepts p k v) :
    p.Returned (p.put store (some k) arg [] .allOk).1 (some k) v := by
  obtain ⟨path, hpath⟩ := Option.isSome_iff_exists.mp ha.2.2.2.2
  have hlength : v.toBlob.length = valueHeader + v.payload.length := length_makeBlob
  have hsmall := ha.2.2.1
  have hfive : valueHeader = 5 := rfl
  have hfile : lfsFileMax = 2147483647 := rfl
  rw [store_put harg, if_pos ha]
  refine returned_of_decodes (decodes_blob ha.2.1 ?_ (by omega))
  rw [efGetEnvBlob_set store hpath toBlob_ne_nil, if_pos rfl]

/-- Every blob in the store is decoded exactly, and every value that is put is returned. -/
theorem decodes (hns : p.ns.text ≠ []) :
    (∀ blob, efGetEnvBlob store (joined p.ns.text k) = some blob → blob.length ≤ lfsFileMax →
      Decodes p store (some k) blob) ∧
    ∀ arg v, arg.value = some v → Accepts p k v →
      p.Returned (p.put store (some k) arg [] .allOk).1 (some k) v :=
  ⟨fun _ => decodes_blob hns, fun _ _ => returned_put⟩

/-- A blob whose length field makes the sum of the header wrap around to nothing. -/
theorem decodes_wrapped : Decodes (initial.begin (some ⟨[0x6E], by decide⟩) false []).1
    ((∅ : Store).insert [0x6E, 0x7D, 0x0F, 0x6B] [9, 0xFB, 0xFF, 0xFF, 0xFF])
    (some ⟨[0x6B], by decide⟩) [9, 0xFB, 0xFF, 0xFF, 0xFF] :=
  (decodes (by decide)).1 _ (by decide) (by decide)

end Preferences

end Bl616cl.Prefs
