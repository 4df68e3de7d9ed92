import Bl616cl.Lib.Run
import Bl616cl.Prefs.Preferences

/-!
# Gets next to other tasks

`read_blob` asks EasyFlash for the size of a value in one call and fetches the value in another, so
other tasks can write between the two. The buffer has the first size, the getters check the header
against the second. `sound_iff` says when a get stays inside what has been read.

Each call of EasyFlash is one step; it may fail, as may the allocations of the buffers. The `String`
operations that build the key and the result of `getString` succeed.
-/

namespace Bl616cl.Prefs

open Bl616cl.Lib

/-- The buffer of `read_blob`. -/
structure HeapBlob where
  size : Nat
  /-- How many bytes the second call has read into it. -/
  filled : Nat
  /-- The byte at each offset, behind the filled ones too. -/
  mem : Nat → UInt8

namespace HeapBlob

/-- A buffer of `size` bytes with `got` read to its start. -/
def fill (size : Nat) (got : List UInt8) (junk : Nat → UInt8) : HeapBlob :=
  ⟨size, got.length, fun i => got.getD i (junk i)⟩

/-- `memcpy` from the buffer. -/
def copy (b : HeapBlob) (offset len : Nat) : List UInt8 :=
  (List.range len).map fun i => b.mem (offset + i)

/-- `get_le32(blob + 1)`. -/
def len (b : HeapBlob) : Nat := getLe32 (b.copy 1 4)

/-- What has been read is the start of the value. -/
structure Holds (b : HeapBlob) (v : List UInt8) : Prop where
  filled_le : b.filled ≤ v.length
  mem_eq : ∀ i, i < b.filled → b.mem i = v.getD i 0

end HeapBlob

/-- `ef_get_env_blob`: the bytes read into a buffer and the length of the value. -/
def efGetEnvBlobInto (store : Store) (key : List UInt8) (bufLen : Nat) (lfsOk : Bool) :
    List UInt8 × Nat :=
  match efGetEnvBlob store key with
  | none => ([], 0)
  | some v => if lfsOk then (v.take bufLen, v.length) else ([], 0)

/-- `read_blob` up to its `malloc`; `none` where it returns null. -/
def readBlobSize (store : Store) (key : List UInt8) (lfsOk mallocOk : Bool) : Option Nat :=
  let saved := (efGetEnvBlobInto store key 0 lfsOk).2
  if saved < valueHeader then none
  else if mallocOk then some saved else none

/-- The rest of `read_blob`: the buffer and `total`. -/
def readBlobFetch (store : Store) (key : List UInt8) (size : Nat) (lfsOk : Bool)
    (junk : Nat → UInt8) : Option (HeapBlob × Nat) :=
  let got := efGetEnvBlobInto store key size lfsOk
  if got.1.length = 0 ∨ got.2 < valueHeader then none
  else some (HeapBlob.fill size got.1 junk, got.2)

/-! ## The getters -/

/-- A get with its arguments besides the key. -/
inductive Getter where
  | value (ty : PreferenceType) (len : Nat)
  | string (defaultValue : List UInt8)
  | bytesLength
  | bytes (maxLen : Nat)
  | type

namespace Getter

def Result : Getter → Type
  | value _ _ => Option (List UInt8)
  | string _ | bytes _ => List UInt8
  | bytesLength => Nat
  | type => PreferenceType

/-- What is returned where there is no value. -/
def default : (g : Getter) → g.Result
  | value _ _ => (none : Option (List UInt8))
  | string defaultValue => defaultValue
  | bytesLength => (0 : Nat)
  | bytes _ => ([] : List UInt8)
  | type => PreferenceType.invalid

/-- What is returned to a task that runs alone. -/
def alone (p : Preferences) (store : Store) (key : Option CStr) : (g : Getter) → g.Result
  | value ty len => p.getValue store key ty len
  | string defaultValue => p.getString store key defaultValue
  | bytesLength => p.getBytesLength store key
  | bytes maxLen => p.getBytes store key maxLen
  | type => p.getType store key

end Getter

/-! What each of them does with the buffer, and how many of its leading bytes it reads. -/

def getValueFrom (b : HeapBlob) (total : Nat) (type : PreferenceType) (len : Nat) :
    Option (List UInt8) × Nat :=
  if b.mem 0 ≠ type.code then (none, 1)
  else if b.len ≠ len ∨ total ≠ valueHeader + b.len then (none, valueHeader)
  else (some (b.copy valueHeader b.len), valueHeader + b.len)

def getStringFrom (b : HeapBlob) (total : Nat) (mallocOk : Bool) (defaultValue : List UInt8) :
    List UInt8 × Nat :=
  if b.mem 0 ≠ PreferenceType.str.code then (defaultValue, 1)
  else if total ≠ valueHeader + b.len then (defaultValue, valueHeader)
  else if !mallocOk then (defaultValue, valueHeader)
  else ((b.copy valueHeader b.len).takeWhile (· ≠ 0), valueHeader + b.len)

def getBytesLengthFrom (b : HeapBlob) (total : Nat) : Nat × Nat :=
  if b.mem 0 ≠ PreferenceType.blob.code then (0, 1)
  else (if total = valueHeader + b.len then b.len else 0, valueHeader)

def getBytesFrom (b : HeapBlob) (total maxLen : Nat) : List UInt8 × Nat :=
  if b.mem 0 ≠ PreferenceType.blob.code then ([], 1)
  else if total ≠ valueHeader + b.len ∨ b.len > maxLen then ([], valueHeader)
  else (b.copy valueHeader b.len, valueHeader + b.len)

def getTypeFrom (b : HeapBlob) : PreferenceType × Nat := (PreferenceType.ofCode (b.mem 0), 1)

namespace Getter

def rest (b : HeapBlob) (total : Nat) (mallocOk : Bool) : (g : Getter) → g.Result × Nat
  | value ty len => getValueFrom b total ty len
  | string defaultValue => getStringFrom b total mallocOk defaultValue
  | bytesLength => getBytesLengthFrom b total
  | bytes maxLen => getBytesFrom b total maxLen
  | type => getTypeFrom b

/-- The value passes the getter's checks, and its payload is copied. -/
def Copies (v : List UInt8) (mallocOk : Bool) : Getter → Prop
  | value ty len => v.headD 0 = ty.code ∧ blobLen v = len ∧ v.length = valueHeader + blobLen v
  | string _ => v.headD 0 = PreferenceType.str.code ∧ v.length = valueHeader + blobLen v ∧
      mallocOk = true
  | bytesLength => False
  | bytes maxLen => v.headD 0 = PreferenceType.blob.code ∧ v.length = valueHeader + blobLen v ∧
      blobLen v ≤ maxLen
  | type => False

end Getter

/-! ## Interleavings -/

/-- A call of another task that writes. -/
inductive Write where
  | put (q : Preferences) (key : Option CStr) (arg : PutArg) (heap : Heap) (lfs : LfsOutcome)
  | remove (q : Preferences) (key : Option CStr)

def Write.apply (store : Store) : Write → Store
  | put q key arg heap lfs => (q.put store key arg heap lfs).1
  | remove q key => (q.remove store key).1

inductive Act where
  | other (w : Write)
  /-- The getter goes on to the end of its next call of EasyFlash and to the `malloc` after it. -/
  | own (lfsOk mallocOk : Bool)

/-- How far a get has come. -/
inductive Phase (R : Type) where
  | start
  | sized (size : Nat)
  | returned (r : R) (reads size filled : Nat)

def Phase.running {R : Type} : Phase R → Bool
  | start | sized _ => true
  | returned .. => false

/-- How many bytes have been read, allocated and filled when the get returns. -/
def Phase.counts {R : Type} : Phase R → Option (Nat × Nat × Nat)
  | returned _ reads size filled => some (reads, size, filled)
  | _ => none

structure Reading (g : Getter) where
  store : Store
  phase : Phase g.Result
  /-- The states of the store during the call. -/
  moments : List Store

namespace Reading

variable {g : Getter} (p : Preferences) (key : Option CStr) (junk : Nat → UInt8)

def init (g : Getter) (store : Store) : Reading g := ⟨store, .start, [store]⟩

/-- The key given to EasyFlash. -/
abbrev fileKey : List UInt8 := (p.makeKey key []).1.text

/-- A null blob is not read. -/
abbrev noBlob (g : Getter) : Phase g.Result := .returned g.default 0 0 0

/-- The getter's next call of EasyFlash with what surrounds it. -/
def goOn (s : Reading g) (lfsOk mallocOk : Bool) : Phase g.Result :=
  match s.phase with
  | .start =>
    if p.ns.length = 0 then noBlob g
    else if (p.makeKey key []).1.length = 0 then noBlob g
    else match readBlobSize s.store (fileKey p key) lfsOk mallocOk with
      | none => noBlob g
      | some size => .sized size
  | .sized size =>
    match readBlobFetch s.store (fileKey p key) size lfsOk junk with
    | none => noBlob g
    | some (b, total) =>
      .returned (g.rest b total mallocOk).1 (g.rest b total mallocOk).2 b.size b.filled
  | .returned .. => s.phase

def step (s : Reading g) : Act → Reading g
  | .other w => { s with
      store := w.apply s.store
      moments := if s.phase.running then w.apply s.store :: s.moments else s.moments }
  | .own lfsOk mallocOk => { s with phase := goOn p key junk s lfsOk mallocOk }

/-- What a get has read was allocated and filled, and it returns its default or what was stored at
some moment of the call. -/
def Sound (s : Reading g) : Prop :=
  ∀ r reads size filled, s.phase = .returned r reads size filled →
    (reads ≤ size ∧ reads ≤ filled) ∧ (r = g.default ∨ ∃ st ∈ s.moments, r = g.alone p st key)

/-- The second call does not find a longer value than the first whose payload is copied. -/
def Unraced (s : Reading g) : Act → Prop
  | .other _ => True
  | .own lfsOk mallocOk => ∀ size v, s.phase = .sized size → lfsOk = true →
      efGetEnvBlob s.store (fileKey p key) = some v → g.Copies v mallocOk → v.length ≤ size

/-- The invariant over runs. -/
structure Inv (s : Reading g) : Prop where
  now : s.phase.running = true → s.store ∈ s.moments
  sized : ∀ size, s.phase = .sized size →
    valueHeader ≤ size ∧ p.ns.length ≠ 0 ∧ (p.makeKey key []).1.length ≠ 0
  sound : s.Sound p key

end Reading

/-! ## What is in the buffer -/

variable {store : Store} {key : List UInt8} {v : List UInt8} {b : HeapBlob}

namespace HeapBlob

theorem Holds.copy_eq (h : b.Holds v) {offset n : Nat} (hn : offset + n ≤ b.filled) :
    b.copy offset n = (v.drop offset).take n := by
  have hle := h.filled_le
  refine List.ext_getElem ?_ fun i hi hi' => ?_
  · simp [copy]
    omega
  · have hlt : i < n := by simpa [copy] using hi
    have hv : offset + i < v.length := by omega
    simp only [copy, List.getElem_map, List.getElem_range, List.getElem_take, List.getElem_drop]
    rw [h.mem_eq _ (by omega), List.getD_eq_getElem _ _ hv]

theorem Holds.head_eq (h : b.Holds v) (hfilled : valueHeader ≤ b.filled) :
    b.mem 0 = v.headD 0 := by
  rw [h.mem_eq 0 (Nat.lt_of_lt_of_le (by decide) hfilled)]
  cases v <;> rfl

theorem getLe32_take {n : Nat} (hn : 4 ≤ n) (src : List UInt8) :
    getLe32 (src.take n) = getLe32 src := by
  have hget : ∀ i, i < 4 → (src.take n).getD i 0 = src.getD i 0 := by
    intro i hi
    simp only [List.getD_eq_getElem?_getD, List.getElem?_take_of_lt (by omega : i < n)]
  simp only [getLe32, hget 0 (by decide), hget 1 (by decide), hget 2 (by decide),
    hget 3 (by decide)]

theorem Holds.len_eq (h : b.Holds v) (hfilled : valueHeader ≤ b.filled) : b.len = blobLen v := by
  rw [len, h.copy_eq hfilled, getLe32_take (Nat.le_refl 4), blobLen]

theorem holds_fill (size : Nat) (v : List UInt8) (junk : Nat → UInt8) :
    (fill size (v.take size) junk).Holds v := by
  refine ⟨List.length_take_le' size v, fun i hi => ?_⟩
  have hlt : i < (v.take size).length := hi
  have hboth : i < size ∧ i < v.length := by
    rw [List.length_take] at hlt
    omega
  show (v.take size).getD i (junk i) = v.getD i 0
  rw [List.getD_eq_getElem _ _ hlt, List.getD_eq_getElem _ _ hboth.2, List.getElem_take]

end HeapBlob

/-- The second call of `read_blob` gives up, or has the start of the value as it is now. -/
theorem readBlobFetch_eq {size : Nat} (hsize : valueHeader ≤ size) (lfsOk : Bool)
    (junk : Nat → UInt8) : readBlobFetch store key size lfsOk junk =
      match efGetEnvBlob store key with
      | none => none
      | some v => if lfsOk = true ∧ valueHeader ≤ v.length
          then some (HeapBlob.fill size (v.take size) junk, v.length) else none := by
  unfold readBlobFetch efGetEnvBlobInto
  cases hv : efGetEnvBlob store key with
  | none => rfl
  | some v =>
    cases lfsOk with
    | false => rfl
    | true =>
      have hpos : 0 < valueHeader := by decide
      by_cases hlong : valueHeader ≤ v.length
      · have hgot : ¬ ((v.take size).length = 0 ∨ v.length < valueHeader) := by
          rw [List.length_take]
          omega
        simp only [if_true, if_neg hgot, hlong, and_self]
      · simp [hlong, Nat.not_le.mp hlong]

/-! ## What the getters do with it -/

namespace Getter

variable {p : Preferences} {k : Option CStr} {mallocOk : Bool} (g : Getter)

theorem reads_of_copies (h : b.Holds v) (hfilled : valueHeader ≤ b.filled)
    (hc : g.Copies v mallocOk) : (g.rest b v.length mallocOk).2 = v.length := by
  have hhead := h.head_eq hfilled
  have hlen := h.len_eq hfilled
  cases g with
  | value ty len =>
    obtain ⟨hty, hbl, htot⟩ := hc
    rw [hty] at hhead
    simp [rest, getValueFrom, hhead, hlen, hbl, htot]
  | string d =>
    obtain ⟨hty, htot, hm⟩ := hc
    rw [hty] at hhead
    simp [rest, getStringFrom, hhead, hlen, ← htot, hm]
  | bytesLength => exact hc.elim
  | bytes maxLen =>
    obtain ⟨hty, htot, hmax⟩ := hc
    rw [hty] at hhead
    simp [rest, getBytesFrom, hhead, hlen, ← htot, Nat.not_lt.mpr hmax]
  | type => exact hc.elim

theorem rest_of_copies (h : b.Holds v) (hfilled : valueHeader ≤ b.filled)
    (hc : g.Copies v mallocOk) (hall : b.filled = v.length)
    (hblob : p.blobOf store k = some v) :
    (g.rest b v.length mallocOk).1 = g.alone p store k := by
  have hhead := h.head_eq hfilled
  have hlen := h.len_eq hfilled
  have hcopy : v.length = valueHeader + blobLen v →
      b.copy valueHeader (blobLen v) = (v.drop valueHeader).take (blobLen v) :=
    fun htot => h.copy_eq (by omega)
  cases g with
  | value ty len =>
    obtain ⟨hty, hbl, htot⟩ := hc
    rw [hty] at hhead
    have hpay := hcopy htot
    show (getValueFrom b v.length ty len).1 = p.getValue store k ty len
    simp only [getValueFrom, Preferences.getValue, hblob, hhead, hlen, hty, hpay]
    simp [hbl, htot]
  | string d =>
    obtain ⟨hty, htot, hm⟩ := hc
    rw [hty] at hhead
    have hpay := hcopy htot
    show (getStringFrom b v.length mallocOk d).1 = p.getString store k d
    simp only [getStringFrom, Preferences.getString, hblob, hhead, hlen, hty, hpay]
    simp [htot, hm]
  | bytesLength => exact hc.elim
  | bytes maxLen =>
    obtain ⟨hty, htot, hmax⟩ := hc
    rw [hty] at hhead
    have hpay := hcopy htot
    show (getBytesFrom b v.length maxLen).1 = p.getBytes store k maxLen
    simp only [getBytesFrom, Preferences.getBytes, hblob, hhead, hlen, hty, hpay]
    simp [htot, Nat.not_lt.mpr hmax]
  | type => exact hc.elim

/-- A get that copies no payload reads the header at most, and returns its default or what it
would return alone. -/
theorem rest_of_not_copies (h : b.Holds v) (hfilled : valueHeader ≤ b.filled)
    (hc : ¬ g.Copies v mallocOk) (hblob : p.blobOf store k = some v) :
    (g.rest b v.length mallocOk).2 ≤ valueHeader ∧
      ((g.rest b v.length mallocOk).1 = g.default ∨
        (g.rest b v.length mallocOk).1 = g.alone p store k) := by
  have hone : 1 ≤ valueHeader := by decide
  have hhead := h.head_eq hfilled
  have hlen := h.len_eq hfilled
  cases g with
  | value ty len =>
    simp only [rest, getValueFrom, hhead, hlen]
    split
    · exact ⟨hone, Or.inl rfl⟩
    · next hty =>
      split
      · exact ⟨Nat.le_refl _, Or.inl rfl⟩
      · next hbad =>
        rw [not_or, not_not, not_not] at hbad
        exact absurd ⟨not_not.mp hty, hbad.1, hbad.2⟩ hc
  | string d =>
    simp only [rest, getStringFrom, hhead, hlen]
    split
    · exact ⟨hone, Or.inl rfl⟩
    · next hty =>
      split
      · exact ⟨Nat.le_refl _, Or.inl rfl⟩
      · next htot =>
        split
        · exact ⟨Nat.le_refl _, Or.inl rfl⟩
        · next hm =>
          exact absurd ⟨not_not.mp hty, not_not.mp htot, by simpa using hm⟩ hc
  | bytesLength =>
    simp only [rest, getBytesLengthFrom, alone, Preferences.getBytesLength, hblob, hhead, hlen]
    split
    · exact ⟨hone, Or.inl rfl⟩
    · exact ⟨Nat.le_refl _, Or.inr rfl⟩
  | bytes maxLen =>
    simp only [rest, getBytesFrom, hhead, hlen]
    split
    · exact ⟨hone, Or.inl rfl⟩
    · next hty =>
      split
      · exact ⟨Nat.le_refl _, Or.inl rfl⟩
      · next hbad =>
        rw [not_or, not_not, Nat.not_lt] at hbad
        exact absurd ⟨not_not.mp hty, hbad.1, hbad.2⟩ hc
  | type =>
    simp only [rest, getTypeFrom, alone, Preferences.getType, hblob, hhead]
    exact ⟨hone, Or.inr rfl⟩

end Getter

/-! ## Runs -/

namespace Reading

variable {g : Getter} {p : Preferences} {k : Option CStr} {junk : Nat → UInt8} {s : Reading g}
  {lfsOk mallocOk : Bool}

theorem sound_noBlob (h : s.phase = noBlob g) : s.Sound p k := by
  intro r reads size filled hr
  rw [h] at hr
  obtain ⟨rfl, rfl, rfl, rfl⟩ := Phase.returned.inj hr
  exact ⟨⟨Nat.le_refl 0, Nat.le_refl 0⟩, Or.inl rfl⟩

theorem reads_le_filled {reads size filled : Nat} (h : s.Sound p k)
    (hcounts : s.phase.counts = some (reads, size, filled)) : reads ≤ filled := by
  cases hphase : s.phase with
  | returned r reads' size' filled' =>
    rw [hphase] at hcounts
    obtain ⟨rfl, rfl, rfl⟩ : reads' = reads ∧ size' = size ∧ filled' = filled := by
      simpa [Phase.counts] using hcounts
    exact (h r _ _ _ hphase).1.2
  | start => simp [hphase, Phase.counts] at hcounts
  | sized size' => simp [hphase, Phase.counts] at hcounts

theorem sound_running (h : s.phase.running = true) : s.Sound p k := by
  intro r reads size filled hr
  rw [hr] at h
  cases h

theorem readBlobSize_le {size : Nat} (h : readBlobSize store key lfsOk mallocOk = some size) :
    valueHeader ≤ size := by
  by_cases hshort : (efGetEnvBlobInto store key 0 lfsOk).2 < valueHeader
  · simp [readBlobSize, hshort] at h
  · cases mallocOk with
    | false => simp [readBlobSize, hshort] at h
    | true =>
      simp only [readBlobSize, if_neg hshort, if_true, Option.some.injEq] at h
      omega

theorem goOn_start (h : s.phase = .start) : goOn p k junk s lfsOk mallocOk = noBlob g ∨
    ∃ size, goOn p k junk s lfsOk mallocOk = .sized size ∧
      valueHeader ≤ size ∧ p.ns.length ≠ 0 ∧ (p.makeKey k []).1.length ≠ 0 := by
  unfold goOn
  simp only [h]
  by_cases hns : p.ns.length = 0
  · simp [hns]
  · by_cases hk : (p.makeKey k []).1.length = 0
    · simp [hk]
    · simp only [if_neg hns, if_neg hk]
      cases hsize : readBlobSize s.store (fileKey p k) lfsOk mallocOk with
      | none => exact Or.inl rfl
      | some size => exact Or.inr ⟨size, rfl, readBlobSize_le hsize, hns, hk⟩

theorem goOn_sized {size : Nat} (h : s.phase = .sized size) (hsize : valueHeader ≤ size) :
    goOn p k junk s lfsOk mallocOk =
      match efGetEnvBlob s.store (fileKey p k) with
      | none => noBlob g
      | some v => if lfsOk = true ∧ valueHeader ≤ v.length then
          let r := g.rest (HeapBlob.fill size (v.take size) junk) v.length mallocOk
          .returned r.1 r.2 size (v.take size).length
        else noBlob g := by
  unfold goOn
  simp only [h, readBlobFetch_eq hsize]
  cases efGetEnvBlob s.store (fileKey p k) with
  | none => rfl
  | some v =>
    by_cases hv : lfsOk = true ∧ valueHeader ≤ v.length
    · simp only [if_pos hv]
      rfl
    · simp only [if_neg hv]

theorem returned_sized {size : Nat} (h : s.phase = .sized size) (hsize : valueHeader ≤ size) :
    (goOn p k junk s lfsOk mallocOk).running = false := by
  rw [goOn_sized h hsize]
  cases efGetEnvBlob s.store (fileKey p k) with
  | none => rfl
  | some v =>
    show (if _ then _ else _ : Phase g.Result).running = false
    split <;> rfl

theorem blobOf_some {store : Store} {v : List UInt8} (hns : p.ns.length ≠ 0)
    (hk : (p.makeKey k []).1.length ≠ 0) (hv : efGetEnvBlob store (fileKey p k) = some v)
    (hlong : valueHeader ≤ v.length) : p.blobOf store k = some v := by
  simp only [Preferences.blobOf, if_neg hns, if_neg hk, readBlob, hv, if_neg (Nat.not_lt.mpr hlong)]

/-- What a getter returns from a buffer that has the value's start. -/
theorem sound_returned {v : List UInt8} {size : Nat} (hblob : p.blobOf s.store k = some v)
    (hnow : s.store ∈ s.moments) (hsize : valueHeader ≤ size) (hlong : valueHeader ≤ v.length)
    (hphase : s.phase =
      .returned (g.rest (HeapBlob.fill size (v.take size) junk) v.length mallocOk).1
        (g.rest (HeapBlob.fill size (v.take size) junk) v.length mallocOk).2 size
        (v.take size).length) :
    s.Sound p k ↔ (g.Copies v mallocOk → v.length ≤ size) := by
  have hholds := HeapBlob.holds_fill size v junk
  have htake : (v.take size).length = min size v.length := List.length_take
  have hfilled : valueHeader ≤ (HeapBlob.fill size (v.take size) junk).filled := by
    show valueHeader ≤ (v.take size).length
    omega
  constructor
  · intro h hc
    obtain ⟨⟨hin, -⟩, -⟩ := h _ _ _ _ hphase
    rwa [g.reads_of_copies hholds hfilled hc] at hin
  · intro hshort r reads size' filled hr
    rw [hphase] at hr
    obtain ⟨rfl, rfl, rfl, rfl⟩ := Phase.returned.inj hr
    by_cases hc : g.Copies v mallocOk
    · have hfit := hshort hc
      have hall : (HeapBlob.fill size (v.take size) junk).filled = v.length := by
        show (v.take size).length = v.length
        omega
      refine ⟨?_, Or.inr ⟨s.store, hnow, g.rest_of_copies hholds hfilled hc hall hblob⟩⟩
      rw [g.reads_of_copies hholds hfilled hc]
      omega
    · obtain ⟨hhead, hres⟩ := g.rest_of_not_copies hholds hfilled hc hblob
      exact ⟨by omega, hres.imp_right fun he => ⟨s.store, hnow, he⟩⟩

/-- The second call is sound exactly if it is not overtaken by a longer value. -/
theorem sound_sized (h : s.Inv p k) {size : Nat} (hphase : s.phase = .sized size) :
    (step p k junk s (.own lfsOk mallocOk)).Sound p k ↔
      s.Unraced p k (.own lfsOk mallocOk) := by
  obtain ⟨hsize, hns, hk⟩ := h.sized size hphase
  have hnow := h.now (by rw [hphase]; rfl)
  have hgo : goOn p k junk s lfsOk mallocOk = _ := goOn_sized hphase hsize
  have hun : s.Unraced p k (.own lfsOk mallocOk) ↔ ∀ v, lfsOk = true →
      efGetEnvBlob s.store (fileKey p k) = some v → g.Copies v mallocOk → v.length ≤ size := by
    constructor
    · exact fun hc v => hc size v hphase
    · rintro hc size' v hphase'
      rw [hphase] at hphase'
      obtain rfl := Phase.sized.inj hphase'
      exact hc v
  rw [hun]
  cases hv : efGetEnvBlob s.store (fileKey p k) with
  | none =>
    simp only [hv] at hgo
    refine ⟨fun _ v _ hsome => ?_, fun _ => sound_noBlob hgo⟩
    cases hsome
  | some v =>
    simp only [hv] at hgo
    by_cases hok : lfsOk = true ∧ valueHeader ≤ v.length
    · rw [if_pos hok] at hgo
      have hblob : p.blobOf s.store k = some v := blobOf_some hns hk hv hok.2
      refine (sound_returned (s := step p k junk s (.own lfsOk mallocOk)) hblob hnow hsize hok.2
        hgo).trans ⟨fun hc w _ hw => ?_, fun hc => hc v hok.1 rfl⟩
      obtain rfl := Option.some.inj hw
      exact hc
    · rw [if_neg hok] at hgo
      refine ⟨fun _ w hl hw _ => ?_, fun _ => sound_noBlob hgo⟩
      obtain rfl := Option.some.inj hw
      have hshort : v.length < valueHeader := Nat.not_le.mp fun hle => hok ⟨hl, hle⟩
      omega

theorem inv_init (g : Getter) (store : Store) : (init g store).Inv p k :=
  ⟨fun _ => List.mem_cons_self, fun _ h => (nomatch h), sound_running rfl⟩

theorem inv_other (h : s.Inv p k) (w : Write) : (step p k junk s (.other w)).Inv p k := by
  refine ⟨fun hrun => ?_, h.sized, fun r reads size filled hr => ?_⟩
  · have hbefore : s.phase.running = true := hrun
    simp [step, hbefore]
  · have hrun : s.phase.running = false := by
      rw [show s.phase = _ from hr]
      rfl
    obtain ⟨hin, hres⟩ := h.sound r reads size filled hr
    refine ⟨hin, ?_⟩
    simpa [step, hrun] using hres

theorem inv_own (h : s.Inv p k) (hc : s.Unraced p k (.own lfsOk mallocOk)) :
    (step p k junk s (.own lfsOk mallocOk)).Inv p k := by
  cases hphase : s.phase with
  | start =>
    have hnow := h.now (by rw [hphase]; rfl)
    have hfirst : goOn p k junk s lfsOk mallocOk = noBlob g ∨ _ := goOn_start hphase
    rcases hfirst with hgo | ⟨size, hgo, hsize⟩
    · refine ⟨fun _ => hnow, fun size hs => ?_, sound_noBlob hgo⟩
      cases hgo.symm.trans hs
    · refine ⟨fun _ => hnow, fun size' hs => ?_, sound_running ?_⟩
      · cases hgo.symm.trans hs
        exact hsize
      · show (goOn p k junk s lfsOk mallocOk).running = true
        rw [hgo]
        rfl
  | sized size =>
    refine ⟨fun _ => h.now (by rw [hphase]; rfl), fun size' hs => ?_, (sound_sized h hphase).mpr hc⟩
    have hend : (goOn p k junk s lfsOk mallocOk).running = false :=
      returned_sized hphase (h.sized size hphase).1
    rw [show goOn p k junk s lfsOk mallocOk = _ from hs] at hend
    cases hend
  | returned r reads size filled =>
    have hsame : step p k junk s (.own lfsOk mallocOk) = s := by
      show { s with phase := goOn p k junk s lfsOk mallocOk } = s
      have hgo : goOn p k junk s lfsOk mallocOk = s.phase := by simp only [goOn, hphase]
      rw [hgo]
    rwa [hsame]

/-- A step keeps a get sound exactly if its second call is not overtaken. -/
theorem unraced_of_sound (h : s.Inv p k) (a : Act) (hs : (step p k junk s a).Sound p k) :
    s.Unraced p k a := by
  cases a with
  | other w => trivial
  | own lfsOk mallocOk =>
    intro size v hphase
    exact (sound_sized h hphase).mp hs size v hphase

/-- **Gets next to writers**: in every interleaving with puts and removes of other tasks, a get
reads only what has been allocated and filled and returns its default or what was stored during the
call, exactly if its second call does not find a longer value than the first whose payload it
copies. -/
theorem sound_iff (p : Preferences) (k : Option CStr) (junk : Nat → UInt8) (g : Getter)
    (store : Store) (acts : List Act) :
    Along (step p k junk) (Sound p k) (init g store) acts ↔
      Meets (step p k junk) (Unraced p k) (init g store) acts := by
  refine along_iff_meets (I := Inv p k) (V := fun _ _ => True) (fun s a h _ hc => ?_)
    (fun s h => h.sound) (fun s a h _ hc hs => hc (unraced_of_sound h a hs)) (inv_init g store)
    (meets_of_forall (fun _ _ => trivial) _ acts)
  cases a with
  | other w => exact inv_other h w
  | own lfsOk mallocOk => exact inv_own h hc

/-- Overtaken by a longer string, `getString` reads behind its buffer. -/
theorem getString_overread : ¬ ∀ (p : Preferences) (k : Option CStr) (junk : Nat → UInt8)
    (g : Getter) (store : Store) (acts : List Act),
      Along (step p k junk) (Sound p k) (init g store) acts := by
  intro h
  let p : Preferences := ⟨⟨[0x61], 1, true⟩, false⟩
  let k : Option CStr := some ⟨[0x62], by decide⟩
  have hrun := h p k (fun _ => 0) (.string []) (p.put ∅ k (.str (some ⟨[], by decide⟩)) [] .allOk).1
    [.own true true, .other (.put p k (.str (some ⟨[0x78], by decide⟩)) [] .allOk), .own true true]
  have hin : 6 ≤ 5 := reads_le_filled hrun.last (by decide : _ = some (6, 5, 5))
  exact absurd hin (by decide)

end Reading

end Bl616cl.Prefs
